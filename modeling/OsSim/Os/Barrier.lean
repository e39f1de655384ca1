import OsSim.Os.Timer

/-!
# The timer as a barrier

The timer thread and any number of devices that do nothing but call `next_slot`
and, at any moment, `detach_event`. `Lockstep` collects what the simulation may
rely on: no device is a slot ahead or behind, none comes out of `next_slot`
early, a detached one is not waited for, and as long as one is attached
somebody can move.
-/

namespace OsSim.Os
open OsSim.Base

variable {D : Type}

/-- The number of slots a device has finished is the time, or one more. -/
theorem TimerInv.cnt_bounds {devs : List D} {s : TimerState D} (h : TimerInv devs s) {d : D}
    (hd : d ∈ devs) (hctl : s.ctl d ≠ .gone) : s.time ≤ s.cnt d ∧ s.cnt d ≤ s.time + 1 := by
  cases h.onTime_or_set hd hctl with
  | inl hon =>
    rw [hon hctl]
    split_ifs <;> omega
  | inr hset => omega

variable [DecidableEq D]

/-- The lock-protected sections, by thread. -/
inductive TimerLabel (D : Type) where
  | timer
  | setDone (d : D)
  | wake (d : D)
  | detach (d : D)

/-- One section of one of the attached devices or of the timer. -/
def timerStep (devs : List D) (s : TimerState D) : TimerLabel D → Option (TimerState D)
  | .timer => timerRoutine devs s
  | .setDone d => if d ∈ devs then setDone s d else none
  | .wake d => if d ∈ devs then wake s d else none
  | .detach d => if d ∈ devs then detachEvent s d else none

/-- Reachable from `start_timer` by any interleaving. -/
def TimerReachable (devs : List D) (s : TimerState D) : Prop :=
  Reachable (System.ofStep (TimerState.start devs) (timerStep devs)) (fun _ _ => True) s

theorem timerInv_timerStep {devs : List D} (hnodup : devs.Nodup) {s t : TimerState D}
    {label : TimerLabel D} (h : TimerInv devs s) (hstep : timerStep devs s label = some t) :
    TimerInv devs t := by
  cases label with
  | timer => exact timerInv_timerRoutine hnodup h hstep
  | setDone d =>
    simp only [timerStep] at hstep
    split_ifs at hstep
    exact timerInv_setDone h hstep
  | wake d =>
    simp only [timerStep] at hstep
    split_ifs at hstep
    exact timerInv_wake h hstep
  | detach d =>
    simp only [timerStep] at hstep
    split_ifs at hstep
    exact timerInv_detachEvent h hstep

theorem TimerReachable.inv {devs : List D} (hnodup : devs.Nodup) {s : TimerState D}
    (h : TimerReachable devs s) : TimerInv devs s := by
  apply Reachable.invariant (TimerInv devs) _ _ h
  · intro s0 h0
    obtain rfl : s0 = TimerState.start devs := h0
    exact timerInv_start devs
  · intro s1 label t hs _ hnext
    exact timerInv_timerStep hnodup hs hnext

theorem device_moves {s : TimerState D} {d : D} (hctl : s.ctl d ≠ .gone)
    (hopen : s.done d = false) : setDone s d ≠ none ∨ wake s d ≠ none := by
  cases hd : s.ctl d with
  | run => exact Or.inl (by simp [setDone, hd])
  | blocked => exact Or.inr (by simp [wake, hd, hopen])
  | gone => exact absurd hd hctl

/-- The device the timer looks at in its waiting loop. -/
def TimerState.head? (s : TimerState D) : Option D :=
  match s.pc with
  | .collect (d :: _) _ _ => some d
  | _ => none

theorem timer_waits_for {devs : List D} {s : TimerState D} (h : TimerInv devs s) :
    (∃ t, timerRoutine devs s = some t) ∨ s.pc = .stopped ∨
      ∃ d ∈ devs, s.head? = some d ∧ s.ctl d ≠ .gone ∧ s.done d = false := by
  have hphase := h.phase
  rw [PhaseOk] at hphase
  cases hpc : s.pc with
  | stopped => exact Or.inr (Or.inl rfl)
  | release rest fsh event => cases rest <;> simp [timerRoutine, hpc]
  | collect rest fsh event =>
    rw [hpc] at hphase
    obtain ⟨seen, hdevs, -⟩ := hphase
    cases rest with
    | nil => simp [timerRoutine, hpc]
    | cons d rest =>
      by_cases hready : (s.done d || s.fsh d) = true
      · exact Or.inl (by simp only [timerRoutine, hpc, if_pos hready]; exact ⟨_, rfl⟩)
      · simp only [Bool.or_eq_true, not_or, Bool.not_eq_true] at hready
        refine Or.inr (Or.inr ⟨d, by simp [hdevs], by simp [TimerState.head?, hpc],
          fun hg => ?_, hready.1⟩)
        rw [(h.fsh_iff d).mpr hg] at hready
        exact absurd hready.2 (by simp)

/-- What the devices and the timer owe each other. -/
structure Lockstep (devs : List D) (s : TimerState D) : Prop where
  in_slot : ∀ d ∈ devs, s.ctl d ≠ .gone → s.time ≤ s.cnt d ∧ s.cnt d ≤ s.time + 1
  not_early : ∀ d ∈ devs, ∀ t, wake s d = some t → s.cnt d ≤ s.time
  not_waited : ∀ d rest fsh event, s.pc = .collect (d :: rest) fsh event → s.ctl d = .gone →
    ∃ t, timerRoutine devs s = some t
  not_stuck : (∃ d ∈ devs, s.ctl d ≠ .gone) → ∃ label t, timerStep devs s label = some t ∧ t ≠ s

/-- Every step goes on in the timer's loops or moves a device. -/
theorem timerStep_ne {devs : List D} {s t : TimerState D} {label : TimerLabel D}
    (h : timerStep devs s label = some t) : t ≠ s := by
  intro heq
  subst heq
  cases label with
  | timer =>
    rw [timerStep, timerRoutine] at h
    cases hpc : t.pc with
    | collect rest fsh event =>
      rw [hpc] at h
      cases rest with
      | nil => simpa [hpc] using congrArg TimerState.pc (Option.some.inj h)
      | cons d rest =>
        dsimp only at h
        split at h
        · simpa [hpc] using congrArg TimerState.pc (Option.some.inj h)
        · cases h
    | release rest fsh event =>
      rw [hpc] at h
      cases rest with
      | nil =>
        have hsame := congrArg TimerState.pc (Option.some.inj h)
        dsimp only at hsame
        rw [hpc] at hsame
        split at hsame
        · cases hsame
        · cases hsame
      | cons d rest => simpa [hpc] using congrArg TimerState.pc (Option.some.inj h)
    | stopped =>
      rw [hpc] at h
      cases h
  | setDone d =>
    rw [timerStep, setDone] at h
    split_ifs at h with hd hrun
    have hsame := congrFun (congrArg TimerState.ctl (Option.some.inj h)) d
    simp [hrun] at hsame
  | wake d =>
    rw [timerStep, wake] at h
    split_ifs at h with hd hblocked
    have hsame := congrFun (congrArg TimerState.ctl (Option.some.inj h)) d
    simp [hblocked.1] at hsame
  | detach d =>
    rw [timerStep, detachEvent] at h
    split_ifs at h with hd hrun
    have hsame := congrFun (congrArg TimerState.ctl (Option.some.inj h)) d
    simp [hrun] at hsame

theorem TimerInv.not_stuck {devs : List D} {s : TimerState D} (h : TimerInv devs s)
    (hattached : ∃ d ∈ devs, s.ctl d ≠ .gone) :
    ∃ label t, timerStep devs s label = some t ∧ t ≠ s := by
  have hmoves : ∃ label t, timerStep devs s label = some t := by
    rcases timer_waits_for h with ⟨t, ht⟩ | hstop | ⟨d, hd, -, hctl, hopen⟩
    · exact ⟨.timer, t, ht⟩
    · obtain ⟨d, hd, hctl⟩ := hattached
      have hphase := h.phase
      rw [PhaseOk, hstop] at hphase
      exact absurd (hphase d hd) hctl
    · rcases device_moves hctl hopen with hset | hwake
      · obtain ⟨t, ht⟩ := Option.ne_none_iff_exists'.mp hset
        exact ⟨.setDone d, t, by simp [timerStep, hd, ht]⟩
      · obtain ⟨t, ht⟩ := Option.ne_none_iff_exists'.mp hwake
        exact ⟨.wake d, t, by simp [timerStep, hd, ht]⟩
  obtain ⟨label, t, hstep⟩ := hmoves
  exact ⟨label, t, hstep, timerStep_ne hstep⟩

/-- Under every interleaving of any number of devices, detaching at any time,
the timer is a barrier and does not get stuck. -/
theorem timer_lockstep {devs : List D} (hnodup : devs.Nodup) {s : TimerState D}
    (h : TimerReachable devs s) : Lockstep devs s where
  in_slot _ hd hctl := (h.inv hnodup).cnt_bounds hd hctl
  not_early d hd t hwake := by
    unfold wake at hwake
    split_ifs at hwake with hw
    exact ((h.inv hnodup).barrier hd (by simp [hw.1]) hw.2).le
  not_waited d rest fsh event hpc hgone := by
    have hfsh := ((h.inv hnodup).fsh_iff d).mpr hgone
    simp [timerRoutine, hpc, hfsh]
  not_stuck := (h.inv hnodup).not_stuck

/-- Device 0 has finished its slot, device 1 has detached, and the timer has
passed both and counted the slot. -/
theorem timer_lockstep_two_devices :
    ∃ s : TimerState (Fin 2), s.time = 1 ∧ s.ctl 1 = .gone ∧ s.cnt 0 = 1 ∧ Lockstep [0, 1] s := by
  have hrun : TimerReachable [(0 : Fin 2), 1] _ :=
    .step (a := .timer) (.step (a := .timer) (.step (a := .timer) (.step (a := .detach 1)
      (.step (a := .setDone 0) (.init rfl) trivial rfl) trivial rfl) trivial rfl) trivial rfl)
      trivial rfl
  exact ⟨_, rfl, rfl, rfl, timer_lockstep (by decide) hrun⟩

end OsSim.Os
