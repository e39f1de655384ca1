import OsSim.Os.Slices

/-!
# The running list (sched.c:132-152)

`add_proc` enlists a process in `running_list`; `put_proc` enlists it again at
the end of every slice, and the branch of `cpu_routine` that frees a finished
process takes nothing out. So the list is the set of live processes exactly as
long as neither has happened.
-/

namespace OsSim.Os
open OsSim.Base OsSim.Sched

variable {σ : Type}

/-- Every live process once, and nothing else. -/
def RunningExact (s : OsState σ) : Prop :=
  ∀ i, s.sched.runningList.toList.count i = if i < s.next ∧ s.freed i = false then 1 else 0

/-- The process that the next step of the thread hands to `put_proc` (`os.c:81-88`). -/
def putsNow (cfg : Config) (s : OsState σ) : Thread → Option ℕ
  | .cpu c =>
    if s.timer.ctl (.cpu c) = .run ∧ (s.cpus c).pc = .top ∧ (s.cpus c).timeLeft = 0 then
      (s.cpus c).proc.filter fun i => s.pcOf i ≠ cfg.size i
    else none
  | _ => none

/-- The step neither finishes a process nor puts one back on a list with room. -/
def NoPutNoFinish (cfg : Config) (s : OsState σ) (th : Thread) : Prop :=
  finishesNow cfg s th = none ∧
    (putsNow cfg s th = none ∨ s.sched.runningList.toList.length = maxQueueSize)

instance (cfg : Config) (s : OsState σ) (th : Thread) : Decidable (NoPutNoFinish cfg s th) :=
  inferInstanceAs (Decidable (_ ∧ _))

/-! ### What moves the list -/

theorem runningList_getProc (prio : ℕ → ℕ) (s : SchedState ℕ) :
    (getProc prio s).2.runningList = s.runningList := by
  unfold getProc getMlqProc
  split_ifs
  · rfl
  · rfl
  · split <;> rfl

theorem toList_putProc (prio : ℕ → ℕ) (s : SchedState ℕ) (i : ℕ) :
    (putProc prio s i).runningList.toList =
      if s.runningList.toList.length = maxQueueSize then s.runningList.toList
      else s.runningList.toList ++ [i] :=
  toList_enqueue s.runningList i

theorem run_sched {cfg : Config} (eff : Effects σ) (s : OsState σ) {i : ℕ}
    (h : ∀ ins ∈ cfg.text i, ins.isKillall = false) : (run cfg eff s i).sched = s.sched := by
  unfold run
  split
  · rfl
  · rename_i ins hins
    rw [h ins (List.mem_of_getElem? hins)]
    rfl

/-- What a run keeps while no process was put back or finished. -/
structure RunningInv (cfg : Config) (s : OsState σ) : Prop where
  control : Control cfg s
  exclusive : Exclusive cfg s
  list : s.sched.runningList.toList = List.range s.next
  freed : ∀ i, s.freed i = false

theorem RunningInv.exact {cfg : Config} {s : OsState σ} (h : RunningInv cfg s) :
    RunningExact s := by
  intro i
  rw [h.list, h.freed i]
  by_cases hi : i < s.next
  · rw [if_pos ⟨hi, rfl⟩]
    exact List.count_eq_one_of_mem List.nodup_range (List.mem_range.mpr hi)
  · rw [if_neg fun hn => hi hn.1]
    exact List.count_eq_zero.mpr fun hm => hi (List.mem_range.mp hm)

theorem runningInv_start (cfg : Config) (mem : σ) : RunningInv cfg (OsState.start cfg mem) where
  control := control_start cfg mem
  exclusive := exclusive_start cfg mem
  list := rfl
  freed _ := rfl

section Step
variable {cfg : Config} {eff : Effects σ} {s t : OsState σ} {th : Thread}

theorem running_step (hno : ∀ i < cfg.numProcesses, ∀ ins ∈ cfg.text i, ins.isKillall = false)
    (h : RunningInv cfg s) (hstep : OsStep cfg eff s th t) :
    t.freed = (match finishesNow cfg s th with
      | some i => Function.update s.freed i true
      | none => s.freed) ∧
    (t.next = s.next ∧ t.sched.runningList.toList = (match putsNow cfg s th with
      | some i => (putProc cfg.prio s.sched i).runningList.toList
      | none => s.sched.runningList.toList) ∨
    finishesNow cfg s th = none ∧ putsNow cfg s th = none ∧ s.next < cfg.numProcesses ∧
      t.next = s.next + 1 ∧
      t.sched.runningList.toList = (putProc cfg.prio s.sched s.next).runningList.toList) := by
  cases hstep with
  | timer => exact ⟨rfl, Or.inl ⟨rfl, rfl⟩⟩
  | ld hld =>
    cases hld with
    | add hrun hat =>
      have hlt := h.control.next_lt (Or.inr (Or.inr hat))
      exact ⟨rfl, Or.inr ⟨rfl, rfl, hlt, rfl, rfl⟩⟩
    | _ => exact ⟨rfl, Or.inl ⟨rfl, rfl⟩⟩
  | @cpu c _ hc hcpu =>
    cases hcpu with
    | wake hb hw => simp [finishesNow, putsNow, hb]
    | fetchIdle hrun hpc hproc =>
      simp [finishesNow, putsNow, hproc, fetch, OsState.setCpu, runningList_getProc]
    | fetchFinish hrun hpc hproc hfin =>
      simp [finishesNow, putsNow, hrun, hpc, hproc, hfin, fetch, OsState.setCpu,
        runningList_getProc, Option.filter]
    | put hrun hpc hproc hfin hleft =>
      simp [finishesNow, putsNow, hrun, hpc, hproc, hfin, hleft, OsState.setCpu, Option.filter]
    | keep hrun hpc hproc hfin hleft =>
      simp [finishesNow, putsNow, hproc, hfin, hleft, OsState.setCpu, Option.filter]
    | fetchPut hrun hpc =>
      simp [finishesNow, putsNow, hpc, fetch, OsState.setCpu, runningList_getProc]
    | exit hrun hpc hproc hdone => simp [finishesNow, putsNow, hpc, OsState.setCpu]
    | skip hrun hpc hproc hdone => simp [finishesNow, putsNow, hpc, OsState.setCpu]
    | @exec i timeLeft hrun hpc hproc =>
      have hlt : i < s.next :=
        h.exclusive.loaded i (Or.inr (Or.inl ⟨c, hproc, by simp [hpc]⟩))
      have hsched := run_sched eff s (hno i (hlt.trans_le h.control.next_le))
      obtain ⟨pcs, sched, mem, hr⟩ := run_frame cfg eff s i
      rw [hr] at hsched ⊢
      obtain rfl : sched = s.sched := hsched
      simp [finishesNow, putsNow, hpc, OsState.setCpu]
    | slot hrun hpc hset => simp [finishesNow, putsNow, hpc, OsState.setCpu]
    | detach hrun hpc hd => simp [finishesNow, putsNow, hpc]

theorem lt_of_putsNow (h : RunningInv cfg s) {i : ℕ} (hi : putsNow cfg s th = some i) :
    i < s.next := by
  cases th with
  | cpu c =>
    simp only [putsNow] at hi
    split_ifs at hi with hc
    have hproc := (Option.filter_eq_some_iff.mp hi).1
    exact h.exclusive.loaded i (Or.inr (Or.inl ⟨c, hproc, by simp [hc.2.1]⟩))
  | timer => simp [putsNow] at hi
  | ld => simp [putsNow] at hi

theorem lt_of_finishesNow (h : RunningInv cfg s) {i : ℕ} (hi : finishesNow cfg s th = some i) :
    i < s.next := by
  cases th with
  | cpu c =>
    simp only [finishesNow] at hi
    split_ifs at hi with hc
    have hproc := (Option.filter_eq_some_iff.mp hi).1
    exact h.exclusive.loaded i (Or.inr (Or.inl ⟨c, hproc, by simp [hc.2]⟩))
  | timer => simp [finishesNow] at hi
  | ld => simp [finishesNow] at hi

theorem count_le_putProc (prio : ℕ → ℕ) (s : SchedState ℕ) (i j : ℕ) :
    s.runningList.toList.count j ≤ (putProc prio s i).runningList.toList.count j := by
  rw [toList_putProc]
  split_ifs
  · exact le_rfl
  · rw [List.count_append]
    exact Nat.le_add_right _ _

theorem runningInv_step
    (hno : ∀ i < cfg.numProcesses, ∀ ins ∈ cfg.text i, ins.isKillall = false)
    (hfew : cfg.numProcesses ≤ maxQueueSize) (h : RunningInv cfg s)
    (hok : NoPutNoFinish cfg s th) (hstep : OsStep cfg eff s th t) : RunningInv cfg t := by
  obtain ⟨hfin, hput⟩ := hok
  obtain ⟨hfreed, hlist⟩ := running_step hno h hstep
  rw [hfin] at hfreed
  refine ⟨control_step h.control hstep,
    exclusive_step (onlyRemoves_of_no_killall eff hno) h.control h.exclusive hstep, ?_,
    fun i => hfreed ▸ h.freed i⟩
  rcases hlist with ⟨hnext, hlist⟩ | ⟨-, -, hlt, hnext, hlist⟩
  · rw [hnext, hlist, ← h.list]
    cases hp : putsNow cfg s th with
    | none => rfl
    | some i =>
      have hfull := hput.resolve_left (by simp [hp])
      exact (toList_putProc cfg.prio s.sched i).trans (if_pos hfull)
  · have hroom : s.sched.runningList.toList.length ≠ maxQueueSize := by
      rw [h.list, List.length_range]
      omega
    rw [hlist, hnext, toList_putProc, if_neg hroom, h.list, List.range_succ]

/-- A `put_proc` on a list with room enlists a process twice, and a finished
process stays in the list. -/
theorem not_runningExact_step
    (hno : ∀ i < cfg.numProcesses, ∀ ins ∈ cfg.text i, ins.isKillall = false)
    (h : RunningInv cfg s) (hok : ¬NoPutNoFinish cfg s th) (hstep : OsStep cfg eff s th t) :
    ¬RunningExact t := by
  obtain ⟨hfreed, hlist⟩ := running_step hno h hstep
  intro hexact
  have hone : ∀ i < s.next, s.sched.runningList.toList.count i = 1 := by
    intro i hi
    rw [h.list]
    exact List.count_eq_one_of_mem List.nodup_range (List.mem_range.mpr hi)
  rcases hlist with ⟨hnext, hlist⟩ | ⟨hfin, hput, -⟩
  · cases hfin : finishesNow cfg s th with
    | some i =>
      rw [hfin] at hfreed
      have hcount := hexact i
      rw [if_neg (by simp [hfreed]), hlist] at hcount
      have hi := hone i (lt_of_finishesNow h hfin)
      cases hp : putsNow cfg s th with
      | none =>
        rw [hp] at hcount
        dsimp only at hcount
        omega
      | some j =>
        rw [hp] at hcount
        have hle := count_le_putProc cfg.prio s.sched j i
        dsimp only at hcount
        omega
    | none =>
      cases hp : putsNow cfg s th with
      | none => exact hok ⟨hfin, Or.inl hp⟩
      | some i =>
        have hroom : s.sched.runningList.toList.length ≠ maxQueueSize := fun hfull =>
          hok ⟨hfin, Or.inr hfull⟩
        have hcount := hexact i
        rw [hlist, hp] at hcount
        dsimp only at hcount
        rw [toList_putProc, if_neg hroom, List.count_append, hone i (lt_of_putsNow h hp),
          List.count_singleton_self] at hcount
        split_ifs at hcount
        all_goals omega
  · exact hok ⟨hfin, Or.inl hput⟩

end Step

/-- In every run in which no process was put back on a list with room and none
was finished, `running_list` is the set of live processes; the first step that
does either ends that. -/
theorem runningExact_iff {cfg : Config}
    (hno : ∀ i < cfg.numProcesses, ∀ ins ∈ cfg.text i, ins.isKillall = false)
    (hfew : cfg.numProcesses ≤ maxQueueSize) (eff : Effects σ) (mem : σ) {s : OsState σ}
    (h : OsReachable cfg eff mem (NoPutNoFinish cfg) s) :
    RunningExact s ∧ ∀ th t, osStep cfg eff s th = some t →
      (RunningExact t ↔ NoPutNoFinish cfg s th) := by
  have hinv : RunningInv cfg s := by
    apply Reachable.invariant (RunningInv cfg) _ _ h
    · intro s0 h0
      obtain rfl : s0 = OsState.start cfg mem := h0
      exact runningInv_start cfg mem
    · intro s1 th t hs hok hnext
      exact runningInv_step hno hfew hs hok (osStep_step hnext)
  refine ⟨hinv.exact, fun th t hnext => ⟨fun hexact => ?_, fun hok => ?_⟩⟩
  · by_contra hok
    exact not_runningExact_step hno hinv hok (osStep_step hnext) hexact
  · exact (runningInv_step hno hfew hinv hok (osStep_step hnext)).exact

theorem runningExact_first_slot :
    ∃ s : OsState Unit, s.next = 1 ∧ s.pcOf 0 = 1 ∧ RunningExact s ∧
      ∀ th t, osStep (.single 0 2) noEffects s th = some t →
        (RunningExact t ↔ NoPutNoFinish (.single 0 2) s th) := by
  obtain ⟨s, hs, hp⟩ := exists_reachable_of_runAll (osStep (.single 0 2) noEffects)
    (NoPutNoFinish (.single 0 2)) (OsState.start (.single 0 2) ()) firstSlot
    (fun s => decide (s.next = 1 ∧ s.pcOf 0 = 1)) (by decide +kernel)
  obtain ⟨hnext, hpc⟩ := of_decide_eq_true hp
  exact ⟨s, hnext, hpc, runningExact_iff (single_valid (by decide) 2).no_killall (by decide)
    noEffects () hs⟩

/-- The process is put back after its first instruction and is in the list twice;
when it has finished and is freed it is still there. -/
theorem running_list_repeats_and_keeps :
    (∃ s, OsReachable (.single 0 2) noEffects () (fun _ _ => True) s ∧ s.freed 0 = false ∧
      s.sched.runningList.toList = [0, 0] ∧ ¬RunningExact s) ∧
    ∃ s, OsReachable (.single 0 1) noEffects () (fun _ _ => True) s ∧ s.freed 0 = true ∧
      s.sched.runningList.toList = [0] ∧ ¬RunningExact s := by
  constructor
  · obtain ⟨s, hs, hp⟩ := exists_reachable_of_runAll (osStep (.single 0 2) noEffects)
      (fun _ _ => True) (OsState.start (.single 0 2) ()) (firstSlot ++ [.cpu 0])
      (fun s => decide (s.freed 0 = false ∧ s.sched.runningList.toList = [0, 0] ∧ s.next = 1))
      (by decide +kernel)
    obtain ⟨hfreed, hlist, hnext⟩ := of_decide_eq_true hp
    refine ⟨s, hs, hfreed, hlist, fun hexact => ?_⟩
    have hcount := hexact 0
    simp [hlist, hnext, hfreed] at hcount
  · obtain ⟨s, hs, hp⟩ := exists_reachable_of_runAll (osStep (.single 0 1) noEffects)
      (fun _ _ => True) (OsState.start (.single 0 1) ()) (firstSlot ++ [.cpu 0])
      (fun s => decide (s.freed 0 = true ∧ s.sched.runningList.toList = [0]))
      (by decide +kernel)
    obtain ⟨hfreed, hlist⟩ := of_decide_eq_true hp
    refine ⟨s, hs, hfreed, hlist, fun hexact => ?_⟩
    have hcount := hexact 0
    simp [hlist, hfreed] at hcount

end OsSim.Os
