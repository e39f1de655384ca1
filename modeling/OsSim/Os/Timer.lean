import OsSim.Base.Runs

/-!
# The timer (timer.c)

The timer thread and the devices attached to it. Each lock-protected section is
one atomic step. A device is running its slot, blocked in `next_slot`, or gone
after `detach_event`; `cnt` is a history variable, the number of times the
device has set `done = 1`. `barrier` is the fact the simulation relies on: a
device that is not waiting for the timer has set `done` exactly `_time` times.
-/

namespace OsSim.Os
open OsSim.Base

/-- Where the thread of a device is with respect to the timer. -/
inductive Ctl where
  | run
  | blocked
  | gone
  deriving DecidableEq

/-- Where `timer_routine` is: in the waiting loop (`timer.c:29-42`) or in the
releasing loop (`timer.c:48-53`), with the devices still to visit and the two
counters, or out of the outer loop. -/
inductive TimerPc (D : Type) where
  | collect (rest : List D) (fsh event : ℕ)
  | release (rest : List D) (fsh event : ℕ)
  | stopped

structure TimerState (D : Type) where
  time : ℕ
  done : D → Bool
  fsh : D → Bool
  ctl : D → Ctl
  cnt : D → ℕ
  pc : TimerPc D

/-- After every `attach_event` and `start_timer`. -/
def TimerState.start {D : Type} (devs : List D) : TimerState D where
  time := 0
  done _ := false
  fsh _ := false
  ctl _ := .run
  cnt _ := 0
  pc := .collect devs 0 0

variable {D : Type}

/-- One step of `timer_routine` (`timer.c:21-59`). It waits at a device that has
set neither `done` nor `fsh`. -/
def timerRoutine [DecidableEq D] (devs : List D) (s : TimerState D) : Option (TimerState D) :=
  match s.pc with
  | .collect (d :: rest) fsh event =>
    if s.done d || s.fsh d then
      some { s with pc := .collect rest (if s.fsh d then fsh + 1 else fsh) (event + 1) }
    else none
  | .collect [] fsh event => some { s with time := s.time + 1, pc := .release devs fsh event }
  | .release (d :: rest) fsh event =>
    some { s with done := Function.update s.done d false, pc := .release rest fsh event }
  | .release [] fsh event =>
    some { s with pc := if fsh = event then .stopped else .collect devs 0 0 }
  | .stopped => none

/-- The first half of `next_slot` (`timer.c:63-66`). -/
def setDone [DecidableEq D] (s : TimerState D) (d : D) : Option (TimerState D) :=
  if s.ctl d = .run then
    some { s with
      done := Function.update s.done d true
      ctl := Function.update s.ctl d .blocked
      cnt := Function.update s.cnt d (s.cnt d + 1) }
  else none

/-- The second half of `next_slot` (`timer.c:69-76`): leave the waiting loop. -/
def wake [DecidableEq D] (s : TimerState D) (d : D) : Option (TimerState D) :=
  if s.ctl d = .blocked ∧ s.done d = false then
    some { s with ctl := Function.update s.ctl d .run }
  else none

/-- `detach_event` (`timer.c:88-93`). -/
def detachEvent [DecidableEq D] (s : TimerState D) (d : D) : Option (TimerState D) :=
  if s.ctl d = .run then
    some { s with fsh := Function.update s.fsh d true, ctl := Function.update s.ctl d .gone }
  else none

/-! ### The barrier -/

/-- The slots a device that has not left has finished. -/
def OnTime (s : TimerState D) (d : D) : Prop :=
  s.ctl d ≠ .gone → s.cnt d = s.time + if s.done d then 1 else 0

/-- What holds of the devices at each place of `timer_routine`. -/
def PhaseOk (devs : List D) (s : TimerState D) : Prop :=
  match s.pc with
  | .collect rest fsh event => ∃ seen, devs = seen ++ rest ∧ fsh ≤ event ∧
      (fsh = event → ∀ d ∈ seen, s.ctl d = .gone) ∧
      (∀ d ∈ seen, s.ctl d = .gone ∨ s.done d = true) ∧ ∀ d ∈ devs, OnTime s d
  | .release rest fsh event => ∃ seen, devs = seen ++ rest ∧
      (fsh = event → ∀ d ∈ devs, s.ctl d = .gone) ∧
      (∀ d ∈ rest, s.ctl d = .gone ∨ s.done d = true ∧ s.cnt d = s.time) ∧ ∀ d ∈ seen, OnTime s d
  | .stopped => ∀ d ∈ devs, s.ctl d = .gone

structure TimerInv (devs : List D) (s : TimerState D) : Prop where
  fsh_iff : ∀ d, s.fsh d = true ↔ s.ctl d = .gone
  run_open : ∀ d, s.ctl d = .run → s.done d = false
  phase : PhaseOk devs s

theorem timerInv_start (devs : List D) : TimerInv devs (TimerState.start devs) where
  fsh_iff d := by simp [TimerState.start]
  run_open d _ := rfl
  phase := ⟨[], rfl, le_rfl, by simp, by simp, fun d _ _ => by simp [TimerState.start]⟩

/-- The device is on time, or it is set and not yet released by the timer, which has
already gone one slot on. -/
theorem TimerInv.onTime_or_set {devs : List D} {s : TimerState D} (h : TimerInv devs s) {d : D}
    (hd : d ∈ devs) (hctl : s.ctl d ≠ .gone) :
    OnTime s d ∨ s.done d = true ∧ s.cnt d = s.time := by
  have hphase := h.phase
  rw [PhaseOk] at hphase
  split at hphase
  · obtain ⟨seen, -, -, -, -, hall⟩ := hphase
    exact Or.inl (hall d hd)
  · obtain ⟨seen, hdevs, -, hrest, hseen⟩ := hphase
    rw [hdevs] at hd
    cases List.mem_append.mp hd with
    | inl hd => exact Or.inl (hseen d hd)
    | inr hd => exact Or.inr ((hrest d hd).resolve_left hctl)
  · exact absurd (hphase d hd) hctl

/-- A device of the list that is neither gone nor waiting has done `_time` slots. -/
theorem TimerInv.barrier {devs : List D} {s : TimerState D} (h : TimerInv devs s) {d : D}
    (hd : d ∈ devs) (hctl : s.ctl d ≠ .gone) (hdone : s.done d = false) : s.cnt d = s.time := by
  cases h.onTime_or_set hd hctl with
  | inl hon => simpa [hdone] using hon hctl
  | inr hset => exact hset.2

theorem timerInv_collect {devs : List D} {s : TimerState D} (h : TimerInv devs s) {d : D}
    {rest : List D} {fsh event : ℕ} (hpc : s.pc = .collect (d :: rest) fsh event)
    (hready : (s.done d || s.fsh d) = true) :
    TimerInv devs
      { s with pc := .collect rest (if s.fsh d then fsh + 1 else fsh) (event + 1) } := by
  have hphase := h.phase
  rw [PhaseOk, hpc] at hphase
  obtain ⟨seen, hdevs, hle, hgone, hseen, hall⟩ := hphase
  refine ⟨h.fsh_iff, h.run_open, seen ++ [d], by simp [hdevs], ?_, ?_, ?_, hall⟩
  · split_ifs <;> omega
  · intro heq e he
    split_ifs at heq with hf
    · rcases List.mem_append.mp he with he | he
      · exact hgone (by omega) e he
      · rw [List.mem_singleton.mp he]
        exact (h.fsh_iff d).mp hf
    · omega
  · intro e he
    rcases List.mem_append.mp he with he | he
    · exact hseen e he
    · rw [List.mem_singleton.mp he]
      rcases Bool.or_eq_true_iff.mp hready with hr | hr
      · exact Or.inr hr
      · exact Or.inl ((h.fsh_iff d).mp hr)

/-- `_time++`: every device still there has set `done`. -/
theorem timerInv_tick {devs : List D} {s : TimerState D} (h : TimerInv devs s)
    {fsh event : ℕ} (hpc : s.pc = .collect [] fsh event) :
    TimerInv devs { s with time := s.time + 1, pc := .release devs fsh event } := by
  have hphase := h.phase
  rw [PhaseOk, hpc] at hphase
  obtain ⟨seen, hdevs, hle, hgone, hseen, hall⟩ := hphase
  rw [List.append_nil] at hdevs
  subst hdevs
  refine ⟨h.fsh_iff, h.run_open, [], rfl, hgone, fun d hd => ?_, by simp⟩
  rcases hseen d hd with hg | hset
  · exact Or.inl hg
  · by_cases hg : s.ctl d = .gone
    · exact Or.inl hg
    · have hcnt := hall d hd hg
      rw [hset, if_pos rfl] at hcnt
      exact Or.inr ⟨hset, hcnt⟩

theorem timerInv_release [DecidableEq D] {devs : List D} (hnodup : devs.Nodup)
    {s : TimerState D} (h : TimerInv devs s) {d : D} {rest : List D} {fsh event : ℕ}
    (hpc : s.pc = .release (d :: rest) fsh event) :
    TimerInv devs
      { s with done := Function.update s.done d false, pc := .release rest fsh event } := by
  have hphase := h.phase
  rw [PhaseOk, hpc] at hphase
  obtain ⟨seen, hdevs, hgone, hrest, hseen⟩ := hphase
  have hne : ∀ e ∈ rest, e ≠ d := by
    intro e he hed
    rw [hdevs] at hnodup
    exact (List.nodup_cons.mp (List.nodup_append.mp hnodup).2.1).1 (hed ▸ he)
  refine ⟨h.fsh_iff, fun e he => ?_, seen ++ [d], by simp [hdevs], hgone, fun e he => ?_, ?_⟩
  · simp only [Function.update_apply]
    split_ifs
    · rfl
    · exact h.run_open e he
  · simp only [Function.update_of_ne (hne e he)]
    exact hrest e (List.mem_cons_of_mem _ he)
  · intro e he hg
    by_cases hed : e = d
    · subst hed
      rcases hrest e (List.mem_cons_self ..) with hr | hr
      · exact absurd hr hg
      · simpa using hr.2
    · have hes : e ∈ seen := by simpa [hed] using he
      simpa only [Function.update_of_ne hed] using hseen e hes hg

theorem timerInv_round {devs : List D} {s : TimerState D} (h : TimerInv devs s)
    {fsh event : ℕ} (hpc : s.pc = .release [] fsh event) :
    TimerInv devs { s with pc := if fsh = event then .stopped else .collect devs 0 0 } := by
  have hphase := h.phase
  rw [PhaseOk, hpc] at hphase
  obtain ⟨seen, hdevs, hgone, -, hseen⟩ := hphase
  rw [List.append_nil] at hdevs
  subst hdevs
  refine ⟨h.fsh_iff, h.run_open, ?_⟩
  by_cases heq : fsh = event
  · simp only [PhaseOk, if_pos heq]
    exact hgone heq
  · simp only [PhaseOk, if_neg heq]
    exact ⟨[], rfl, le_rfl, by simp, by simp, hseen⟩

theorem timerInv_timerRoutine [DecidableEq D] {devs : List D} (hnodup : devs.Nodup)
    {s t : TimerState D} (h : TimerInv devs s) (hstep : timerRoutine devs s = some t) :
    TimerInv devs t := by
  simp only [timerRoutine] at hstep
  split at hstep
  · rename_i d rest fsh event hpc
    by_cases hready : (s.done d || s.fsh d) = true
    · rw [if_pos hready] at hstep
      exact Option.some.inj hstep ▸ timerInv_collect h hpc hready
    · rw [if_neg hready] at hstep
      exact absurd hstep (by simp)
  · rename_i hpc
    exact Option.some.inj hstep ▸ timerInv_tick h hpc
  · rename_i hpc
    exact Option.some.inj hstep ▸ timerInv_release hnodup h hpc
  · rename_i hpc
    exact Option.some.inj hstep ▸ timerInv_round h hpc
  · exact absurd hstep (by simp)

/-- A device step keeps the phase when it changes one device, which the timer
has not collected in this round, and leaves that device on time. -/
theorem phaseOk_of_agree {devs : List D} {s t : TimerState D} {d : D} (h : PhaseOk devs s)
    (hpc : t.pc = s.pc) (htime : t.time = s.time)
    (hother : ∀ e, e ≠ d → t.ctl e = s.ctl e ∧ t.done e = s.done e ∧ t.cnt e = s.cnt e)
    (hgone : s.ctl d ≠ .gone) (hopen : s.done d = false)
    (hon : OnTime s d → OnTime t d) : PhaseOk devs t := by
  have honall : ∀ e, OnTime s e → OnTime t e := by
    intro e he
    by_cases hed : e = d
    · subst hed
      exact hon he
    · obtain ⟨h1, h2, h3⟩ := hother e hed
      rw [OnTime, h1, h2, h3, htime]
      exact he
  have hgoneall : (∀ e ∈ devs, s.ctl e = .gone) → ∀ e ∈ devs, t.ctl e = .gone := by
    intro hall e he
    by_cases hed : e = d
    · exact absurd (hed ▸ hall e he) hgone
    · rw [(hother e hed).1]
      exact hall e he
  rw [PhaseOk] at h ⊢
  rw [hpc]
  split at h
  · obtain ⟨seen, hdevs, hle, hg, hseen, hall⟩ := h
    have hne : ∀ e ∈ seen, e ≠ d := by
      intro e he hed
      subst hed
      rcases hseen e he with h1 | h1
      · exact hgone h1
      · simp [hopen] at h1
    refine ⟨seen, hdevs, hle, fun heq e he => ?_, fun e he => ?_, fun e he => honall e (hall e he)⟩
    · rw [(hother e (hne e he)).1]
      exact hg heq e he
    · obtain ⟨h1, h2, -⟩ := hother e (hne e he)
      rw [h1, h2]
      exact hseen e he
  · obtain ⟨seen, hdevs, hg, hrest, hseen⟩ := h
    refine ⟨seen, hdevs, fun heq => hgoneall (hg heq), fun e he => ?_,
      fun e he => honall e (hseen e he)⟩
    have hed : e ≠ d := by
      rintro rfl
      rcases hrest e he with h1 | ⟨h1, -⟩
      · exact hgone h1
      · simp [hopen] at h1
    obtain ⟨h1, h2, h3⟩ := hother e hed
    rw [h1, h2, h3, htime]
    exact hrest e he
  · exact hgoneall h

theorem timerInv_setDone [DecidableEq D] {devs : List D} {s t : TimerState D} {d : D}
    (h : TimerInv devs s) (hstep : setDone s d = some t) : TimerInv devs t := by
  rw [setDone] at hstep
  split_ifs at hstep with hrun
  obtain rfl := Option.some.inj hstep
  have hopen := h.run_open d hrun
  refine ⟨fun e => ?_, fun e he => ?_, ?_⟩
  · by_cases hed : e = d
    · subst hed
      simp [h.fsh_iff, hrun]
    · simp [h.fsh_iff, hed]
  · by_cases hed : e = d
    · subst hed
      simp at he
    · simp only [Function.update_of_ne hed] at he ⊢
      exact h.run_open e he
  · refine phaseOk_of_agree (d := d) h.phase rfl rfl (fun e hed => ?_) (by simp [hrun]) hopen ?_
    · simp [hed]
    · intro ho _
      have hcnt := ho (by simp [hrun])
      simp [hopen] at hcnt ⊢
      omega

theorem timerInv_wake [DecidableEq D] {devs : List D} {s t : TimerState D} {d : D}
    (h : TimerInv devs s) (hstep : wake s d = some t) : TimerInv devs t := by
  rw [wake] at hstep
  split_ifs at hstep with hw
  obtain rfl := Option.some.inj hstep
  refine ⟨fun e => ?_, fun e he => ?_, ?_⟩
  · by_cases hed : e = d
    · subst hed
      simp [h.fsh_iff, hw.1]
    · simp [h.fsh_iff, hed]
  · by_cases hed : e = d
    · exact hed ▸ hw.2
    · simp only [Function.update_of_ne hed] at he
      exact h.run_open e he
  · refine phaseOk_of_agree (d := d) h.phase rfl rfl (fun e hed => ?_) (by simp [hw.1]) hw.2 ?_
    · simp [hed]
    · intro ho _
      exact ho (by simp [hw.1])

theorem timerInv_detachEvent [DecidableEq D] {devs : List D} {s t : TimerState D} {d : D}
    (h : TimerInv devs s) (hstep : detachEvent s d = some t) : TimerInv devs t := by
  rw [detachEvent] at hstep
  split_ifs at hstep with hrun
  obtain rfl := Option.some.inj hstep
  refine ⟨fun e => ?_, fun e he => ?_, ?_⟩
  · by_cases hed : e = d
    · subst hed
      simp
    · simp [h.fsh_iff, hed]
  · by_cases hed : e = d
    · subst hed
      simp at he
    · simp only [Function.update_of_ne hed] at he
      exact h.run_open e he
  · refine phaseOk_of_agree (d := d) h.phase rfl rfl (fun e hed => ?_) (by simp [hrun])
      (h.run_open d hrun) ?_
    · simp [hed]
    · intro _ hg
      simp at hg

end OsSim.Os
