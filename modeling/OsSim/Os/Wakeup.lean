import OsSim.Base.CondVar
import OsSim.Os.Barrier

/-!
# The locks and condition variables of the timer (timer.c)

`TimerState` takes a section between a lock and its unlock as one step. Here the
timer thread, the devices and `main` take `lock`, `unlock`, `wait`, `signal` and
every access to a shared variable one at a time. A device waits for `done` to be
cleared under its `timer_lock` and sets it under its `event_lock`, so the two
locks guard the same variable in turns. No wakeup is lost, nobody is ever stuck
before `stop_timer` returns, and each step is one of `TimerState` or none of it. Only
the end of the timer's loop at a set `timer_stop` is a step that `TimerState` lacks.
-/

namespace OsSim.Os
open OsSim.Base

variable {D : Type}

/-- What the timer has to do before it goes on in its loop: the first test of `timer_stop`,
or to give up the `event_lock` or the `timer_lock` of a device. -/
inductive Leaving (D : Type) where
  | no
  | enter
  | event (d : D)
  | gate (d : D)

/-- The end of `main` (`os.c:282-291`): it waits for the threads of all devices, then in
`stop_timer` for the timer, and destroys the locks. -/
inductive MainPc where
  | join
  | stop
  | freed
  deriving DecidableEq

/-- `event d` is `event_lock` with `event_cond`, where the timer waits for device `d`, and
`gate d` is `timer_lock` with `timer_cond`, where the device waits for the timer. -/
structure Threads (D : Type) where
  timer : TimerState D
  event : D → CondVar
  gate : D → CondVar
  leaving : Leaving D
  timerStop : Bool
  main : MainPc

def Threads.start (devs : List D) : Threads D where
  timer := .start devs
  event _ := .idle
  gate _ := .idle
  leaving := .enter
  timerStop := false
  main := .join

/-- What the timer waits for (`timer.c:31`). -/
def eventGuard (t : TimerState D) (d : D) : Bool := t.done d || t.fsh d

/-- What a device in `next_slot` waits for (`timer.c:70`). -/
def gateGuard (t : TimerState D) (d : D) : Bool := !t.done d

/-- The thread of the device has ended. -/
def Threads.exited (s : Threads D) (d : D) : Prop :=
  s.timer.ctl d = .gone ∧ (s.event d).setter = .out

instance (s : Threads D) (d : D) : Decidable (s.exited d) := inferInstanceAs (Decidable (_ ∧ _))

def TimerPc.isStopped : TimerPc D → Bool
  | .stopped => true
  | _ => false

/-- A step of a thread, or a wakeup that nobody signalled. -/
inductive ThreadLabel (D : Type) where
  | timer
  | device (d : D) (leave : Bool)
  | main
  | spuriousEvent (d : D)
  | spuriousGate (d : D)

def ThreadLabel.isThread : ThreadLabel D → Bool
  | .timer | .device .. | .main => true
  | .spuriousEvent _ | .spuriousGate _ => false

section Model
variable [DecidableEq D]

def Threads.setEvent (s : Threads D) (d : D) (c : CondVar) : Threads D :=
  { s with event := Function.update s.event d c }

def Threads.setGate (s : Threads D) (d : D) (c : CondVar) : Threads D :=
  { s with gate := Function.update s.gate d c }

theorem Threads.setEvent_self (s : Threads D) (d : D) (c : CondVar) :
    (s.setEvent d c).event d = c := Function.update_self ..

theorem Threads.setEvent_of_ne (s : Threads D) {d e : D} (c : CondVar) (h : e ≠ d) :
    (s.setEvent d c).event e = s.event e := Function.update_of_ne h _ _

theorem Threads.setGate_self (s : Threads D) (d : D) (c : CondVar) :
    (s.setGate d c).gate d = c := Function.update_self ..

theorem Threads.setGate_of_ne (s : Threads D) {d e : D} (c : CondVar) (h : e ≠ d) :
    (s.setGate d c).gate e = s.gate e := Function.update_of_ne h _ _

/-- The next step of `timer_routine` (`timer.c:21-59`). -/
def timerThread (devs : List D) (s : Threads D) : Option (Threads D) :=
  match s.leaving with
  | .enter => some { s with
      timer := if s.timerStop = true then { s.timer with pc := .stopped } else s.timer
      leaving := .no }
  | .event d => ((s.event d).waiterStep (eventGuard s.timer d)).map fun c =>
      { s.setEvent d c with leaving := .no }
  | .gate d => (s.gate d).setterStep.map fun c =>
      { s.setGate d c with leaving := if c.setter = .out then .no else .gate d }
  | .no =>
    match s.timer.pc with
    | .collect (d :: _) _ _ =>
      if (s.event d).waiter = .past then
        (timerRoutine devs s.timer).map fun t => { s with timer := t, leaving := .event d }
      else ((s.event d).waiterStep (eventGuard s.timer d)).map fun c => s.setEvent d c
    | .release (d :: _) _ _ =>
      (s.gate d).setterStep.bind fun c =>
        if (s.gate d).setter = .set then
          (timerRoutine devs s.timer).map fun t => { s.setGate d c with timer := t, leaving := .gate d }
        else some (s.setGate d c)
    | .release [] fsh event =>
      -- the loop is left at the `break`, or at its head once `timer_stop` is set
      some { s with timer := { s.timer with
        pc := if fsh = event ∨ s.timerStop = true then .stopped else .collect devs 0 0 } }
    | .collect [] _ _ | .stopped => (timerRoutine devs s.timer).map fun t => { s with timer := t }

/-- The next step of the thread of device `d`. While it runs its slot it calls
`next_slot`, or `detach_event` if it leaves; both begin by storing a flag under
`event_lock`. -/
def deviceThread (s : Threads D) (d : D) (leave : Bool) : Option (Threads D) :=
  match s.timer.ctl d with
  | .run =>
    (s.event d).setterStep.bind fun c =>
      if (s.event d).setter = .set then
        (if leave then detachEvent s.timer d else setDone s.timer d).map fun t =>
          { s.setEvent d c with timer := t }
      else some (s.setEvent d c)
  | .blocked =>
    if (s.event d).setter ≠ .out then (s.event d).setterStep.map fun c => s.setEvent d c
    else
      ((s.gate d).waiterStep (gateGuard s.timer d)).bind fun c =>
        if (s.gate d).waiter = .past then
          (wake s.timer d).map fun t => { s.setGate d c with timer := t }
        else some (s.setGate d c)
  | .gone =>
    if (s.event d).setter ≠ .out then (s.event d).setterStep.map fun c => s.setEvent d c else none

/-- `pthread_join` of the devices and `stop_timer` (`timer.c:120-131`). -/
def mainThread (devs : List D) (s : Threads D) : Option (Threads D) :=
  match s.main with
  | .join => if ∀ d ∈ devs, s.exited d then some { s with timerStop := true, main := .stop } else none
  | .stop => if s.timer.pc.isStopped then some { s with main := .freed } else none
  | .freed => none

def threadsStep (devs : List D) (s : Threads D) : ThreadLabel D → Option (Threads D)
  | .timer => timerThread devs s
  | .device d leave => if d ∈ devs then deviceThread s d leave else none
  | .main => mainThread devs s
  | .spuriousEvent d => (s.event d).spurious.map fun c => s.setEvent d c
  | .spuriousGate d => (s.gate d).spurious.map fun c => s.setGate d c

def ThreadsReachable (devs : List D) (s : Threads D) : Prop :=
  Reachable (System.ofStep (Threads.start devs) (threadsStep devs)) (fun _ _ => True) s

/-! ### The steps -/

/-- What a step of the timer does. -/
inductive TimerMove (devs : List D) (s : Threads D) : Threads D → Prop where
  | enter : s.leaving = .enter → TimerMove devs s { s with
      timer := if s.timerStop = true then { s.timer with pc := .stopped } else s.timer
      leaving := .no }
  | leaveEvent {d : D} {c : CondVar} : s.leaving = .event d →
      (s.event d).waiterStep (eventGuard s.timer d) = some c →
      TimerMove devs s { s.setEvent d c with leaving := .no }
  | leaveGate {d : D} {c : CondVar} : s.leaving = .gate d → (s.gate d).setterStep = some c →
      TimerMove devs s { s.setGate d c with leaving := if c.setter = .out then .no else .gate d }
  | look {d : D} {rest : List D} {fsh event : ℕ} {c : CondVar} : s.leaving = .no →
      s.timer.pc = .collect (d :: rest) fsh event → (s.event d).waiter ≠ .past →
      (s.event d).waiterStep (eventGuard s.timer d) = some c → TimerMove devs s (s.setEvent d c)
  | count {d : D} {rest : List D} {fsh event fsh' : ℕ} : s.leaving = .no →
      s.timer.pc = .collect (d :: rest) fsh event → (s.event d).waiter = .past →
      timerRoutine devs s.timer = some { s.timer with pc := .collect rest fsh' (event + 1) } →
      TimerMove devs s { s with
        timer := { s.timer with pc := .collect rest fsh' (event + 1) }
        leaving := .event d }
  | tick {fsh event : ℕ} : s.leaving = .no → s.timer.pc = .collect [] fsh event →
      timerRoutine devs s.timer =
        some { s.timer with time := s.timer.time + 1, pc := .release devs fsh event } →
      TimerMove devs s { s with
        timer := { s.timer with time := s.timer.time + 1, pc := .release devs fsh event }
        leaving := .no }
  | lock {d : D} {rest : List D} {fsh event : ℕ} {c : CondVar} : s.leaving = .no →
      s.timer.pc = .release (d :: rest) fsh event → (s.gate d).setter ≠ .set →
      (s.gate d).setterStep = some c → TimerMove devs s (s.setGate d c)
  | store {d : D} {rest : List D} {fsh event : ℕ} {c : CondVar} : s.leaving = .no →
      s.timer.pc = .release (d :: rest) fsh event → (s.gate d).setter = .set →
      (s.gate d).setterStep = some c →
      timerRoutine devs s.timer = some { s.timer with
        done := Function.update s.timer.done d false
        pc := .release rest fsh event } →
      TimerMove devs s { s.setGate d c with
        timer := { s.timer with
          done := Function.update s.timer.done d false
          pc := .release rest fsh event }
        leaving := .gate d }
  | round {fsh event : ℕ} : s.leaving = .no → s.timer.pc = .release [] fsh event →
      TimerMove devs s { s with
        timer := { s.timer with
          pc := if fsh = event ∨ s.timerStop = true then .stopped else .collect devs 0 0 }
        leaving := .no }

theorem timerThread_move {devs : List D} {s t : Threads D} (h : timerThread devs s = some t) :
    TimerMove devs s t := by
  rw [timerThread] at h
  cases hleaving : s.leaving with
  | enter =>
    rw [hleaving] at h
    obtain rfl := Option.some.inj h
    exact .enter hleaving
  | event d =>
    rw [hleaving] at h
    obtain ⟨c, hc, rfl⟩ := Option.map_eq_some_iff.mp h
    exact .leaveEvent hleaving hc
  | gate d =>
    rw [hleaving] at h
    obtain ⟨c, hc, rfl⟩ := Option.map_eq_some_iff.mp h
    exact .leaveGate hleaving hc
  | no =>
    rw [hleaving] at h
    dsimp only at h
    cases hpc : s.timer.pc with
    | collect rest fsh event =>
      rw [hpc] at h
      cases rest with
      | nil =>
        obtain ⟨t', ht, rfl⟩ := Option.map_eq_some_iff.mp h
        have htick : timerRoutine devs s.timer = some { s.timer with
            time := s.timer.time + 1, pc := .release devs fsh event } := by
          simp [timerRoutine, hpc]
        obtain rfl := Option.some.inj (htick.symm.trans ht)
        exact .tick hleaving hpc htick
      | cons d rest =>
        dsimp only at h
        split_ifs at h with hpast
        · obtain ⟨t', ht, rfl⟩ := Option.map_eq_some_iff.mp h
          have hcount := ht
          simp only [timerRoutine, hpc] at hcount
          split_ifs at hcount with hready
          · obtain rfl := Option.some.inj hcount
            exact .count hleaving hpc hpast ht
          · obtain rfl := Option.some.inj hcount
            exact .count hleaving hpc hpast ht
        · obtain ⟨c, hc, rfl⟩ := Option.map_eq_some_iff.mp h
          exact .look hleaving hpc hpast hc
    | release rest fsh event =>
      rw [hpc] at h
      cases rest with
      | nil =>
        obtain rfl := Option.some.inj h
        exact .round hleaving hpc
      | cons d rest =>
        obtain ⟨c, hc, hnext⟩ := Option.bind_eq_some_iff.mp h
        split_ifs at hnext with hset
        · obtain ⟨t', ht, rfl⟩ := Option.map_eq_some_iff.mp hnext
          have hstore : timerRoutine devs s.timer = some { s.timer with
              done := Function.update s.timer.done d false, pc := .release rest fsh event } := by
            simp [timerRoutine, hpc]
          obtain rfl := Option.some.inj (hstore.symm.trans ht)
          exact .store hleaving hpc hset hc hstore
        · obtain rfl := Option.some.inj hnext
          exact .lock hleaving hpc hset hc
    | stopped =>
      rw [hpc] at h
      simp [timerRoutine, hpc] at h

/-- What a step of the thread of device `d` does. -/
inductive DeviceMove (s : Threads D) (d : D) : Threads D → Prop where
  | lock {c : CondVar} : s.timer.ctl d = .run → (s.event d).setter ≠ .set →
      (s.event d).setterStep = some c → DeviceMove s d (s.setEvent d c)
  | next {c : CondVar} {t : TimerState D} : s.timer.ctl d = .run → (s.event d).setter = .set →
      (s.event d).setterStep = some c → setDone s.timer d = some t →
      DeviceMove s d { s.setEvent d c with timer := t }
  | detach {c : CondVar} {t : TimerState D} : s.timer.ctl d = .run → (s.event d).setter = .set →
      (s.event d).setterStep = some c → detachEvent s.timer d = some t →
      DeviceMove s d { s.setEvent d c with timer := t }
  | signal {c : CondVar} : s.timer.ctl d ≠ .run → (s.event d).setter ≠ .out →
      (s.event d).setterStep = some c → DeviceMove s d (s.setEvent d c)
  | look {c : CondVar} : s.timer.ctl d = .blocked → (s.event d).setter = .out →
      (s.gate d).waiter ≠ .past → (s.gate d).waiterStep (gateGuard s.timer d) = some c →
      DeviceMove s d (s.setGate d c)
  | wake {c : CondVar} {t : TimerState D} : s.timer.ctl d = .blocked → (s.event d).setter = .out →
      (s.gate d).waiter = .past → (s.gate d).waiterStep (gateGuard s.timer d) = some c →
      wake s.timer d = some t → DeviceMove s d { s.setGate d c with timer := t }

theorem deviceThread_move {s t : Threads D} {d : D} {leave : Bool}
    (h : deviceThread s d leave = some t) : DeviceMove s d t := by
  rw [deviceThread] at h
  cases hctl : s.timer.ctl d with
  | run =>
    rw [hctl] at h
    obtain ⟨c, hc, hnext⟩ := Option.bind_eq_some_iff.mp h
    split_ifs at hnext with hset hleave
    · obtain ⟨t', ht, rfl⟩ := Option.map_eq_some_iff.mp hnext
      exact .detach hctl hset hc ht
    · obtain ⟨t', ht, rfl⟩ := Option.map_eq_some_iff.mp hnext
      exact .next hctl hset hc ht
    · obtain rfl := Option.some.inj hnext
      exact .lock hctl hset hc
  | blocked =>
    rw [hctl] at h
    dsimp only at h
    by_cases hout : (s.event d).setter = .out
    · rw [if_neg (not_not.mpr hout)] at h
      obtain ⟨c, hc, hnext⟩ := Option.bind_eq_some_iff.mp h
      split_ifs at hnext with hpast
      · obtain ⟨t', ht, rfl⟩ := Option.map_eq_some_iff.mp hnext
        exact .wake hctl hout hpast hc ht
      · obtain rfl := Option.some.inj hnext
        exact .look hctl hout hpast hc
    · rw [if_pos hout] at h
      obtain ⟨c, hc, rfl⟩ := Option.map_eq_some_iff.mp h
      exact .signal (by simp [hctl]) hout hc
  | gone =>
    rw [hctl] at h
    dsimp only at h
    split_ifs at h with hout
    obtain ⟨c, hc, rfl⟩ := Option.map_eq_some_iff.mp h
    exact .signal (by simp [hctl]) hout hc

end Model

/-! ### The invariant -/

/-- The device whose event the timer waits for, or whose `event_lock` it holds. -/
def Threads.eventFocus (s : Threads D) : Option D :=
  match s.leaving, s.timer.pc with
  | .event d, _ => some d
  | .enter, _ | .gate _, _ => none
  | .no, .collect (d :: _) _ _ => some d
  | .no, _ => none

/-- The device whose gate the timer opens. -/
def Threads.gateFocus (s : Threads D) : Option D :=
  match s.leaving, s.timer.pc with
  | .enter, _ | .event _, _ => none
  | .gate d, _ => some d
  | .no, .release (d :: _) _ _ => some d
  | .no, _ => none

/-- Where the timer and device `d` are in the sections of `d`. -/
structure Places (t : TimerState D) (eventAt gateAt : Option D) (d : D) (e g : CondVar) : Prop where
  event_ok : e.Ok (eventGuard t d)
  gate_ok : g.Ok (gateGuard t d)
  event_at : e.waiter ≠ .out → eventAt = some d
  gate_at : g.setter ≠ .out → gateAt = some d
  set_run : e.setter = .set → t.ctl d = .run
  run_set : t.ctl d = .run → e.setter = .out ∨ e.setter = .set
  gate_blocked : g.waiter ≠ .out → t.ctl d = .blocked ∧ e.setter = .out

structure ThreadsInv (devs : List D) (s : Threads D) : Prop where
  timer : TimerInv devs s.timer
  places : ∀ d, Places s.timer s.eventFocus s.gateFocus d (s.event d) (s.gate d)
  leaving_no : s.leaving = .no → ∀ d, (s.gate d).setter = .out ∨ (s.gate d).setter = .set
  leaving_event : ∀ d, s.leaving = .event d → (s.event d).waiter = .past
  leaving_gate : ∀ d, s.leaving = .gate d →
    (s.gate d).setter = .signal ∨ (s.gate d).setter = .unlock
  exited : s.timerStop = true → ∀ d ∈ devs, s.exited d
  main_stop : s.main ≠ .join → s.timerStop = true
  freed : s.main = .freed → s.timer.pc = .stopped
  stopped : s.timer.pc = .stopped → s.leaving = .no

theorem threadsInv_start (devs : List D) : ThreadsInv devs (Threads.start devs) where
  timer := timerInv_start devs
  places d := by
    refine ⟨CondVar.ok_idle _, CondVar.ok_idle _, ?_, ?_, ?_, ?_, ?_⟩ <;>
      simp [Threads.start, CondVar.idle]
  leaving_no h := by simp [Threads.start] at h
  leaving_event d h := by simp [Threads.start] at h
  leaving_gate d h := by simp [Threads.start] at h
  exited h := by simp [Threads.start] at h
  main_stop h := absurd rfl h
  freed h := by simp [Threads.start] at h
  stopped h := by simp [Threads.start, TimerState.start] at h

/-- A step elsewhere. -/
theorem Places.frame {t t' : TimerState D} {eventAt eventAt' gateAt gateAt' : Option D} {e : D}
    {ce cg : CondVar} (h : Places t eventAt gateAt e ce cg) (hdone : t'.done e = t.done e)
    (hfsh : t'.fsh e = t.fsh e) (hctl : t'.ctl e = t.ctl e)
    (hevent : eventAt = some e → eventAt' = some e) (hgate : gateAt = some e → gateAt' = some e) :
    Places t' eventAt' gateAt' e ce cg := by
  constructor
  · rw [eventGuard, hdone, hfsh]
    exact h.event_ok
  · rw [gateGuard, hdone]
    exact h.gate_ok
  · intro hw
    exact hevent (h.event_at hw)
  · intro hw
    exact hgate (h.gate_at hw)
  · intro hset
    exact hctl.trans (h.set_run hset)
  · intro hrun
    exact h.run_set (hctl ▸ hrun)
  · intro hw
    rw [hctl]
    exact h.gate_blocked hw

/-- Nobody else is in a section of the timer. -/
theorem ThreadsInv.event_out {devs : List D} {s : Threads D} (h : ThreadsInv devs s) {d : D} (hne : s.eventFocus ≠ some d) :
    (s.event d).waiter = .out := by
  by_contra hout
  exact hne ((h.places d).event_at hout)

theorem ThreadsInv.gate_out {devs : List D} {s : Threads D} (h : ThreadsInv devs s) {d : D} (hne : s.gateFocus ≠ some d) :
    (s.gate d).setter = .out := by
  by_contra hout
  exact hne ((h.places d).gate_at hout)

/-! ### What the steps keep -/

/-- The first test of `timer_stop`. If it is set the devices are gone. -/
theorem ThreadsInv.enter {devs : List D} {s : Threads D} (h : ThreadsInv devs s)
    (hl : s.leaving = .enter) : ThreadsInv devs { s with
      timer := if s.timerStop = true then { s.timer with pc := .stopped } else s.timer
      leaving := .no } := by
  have hevent : s.eventFocus = none := by simp [Threads.eventFocus, hl]
  have hgate : s.gateFocus = none := by simp [Threads.gateFocus, hl]
  have hout : ∀ d, (s.gate d).setter = .out := fun d => h.gate_out (by simp [hgate])
  by_cases hstop : s.timerStop = true
  · rw [if_pos hstop]
    refine ⟨⟨h.timer.fsh_iff, h.timer.run_open, fun d hd => (h.exited hstop d hd).1⟩, fun d => ?_,
      fun _ d => Or.inl (hout d), by simp, by simp, h.exited, h.main_stop, fun _ => rfl,
      fun _ => rfl⟩
    exact (h.places d).frame rfl rfl rfl (by simp [hevent]) (by simp [hgate])
  · rw [if_neg hstop]
    refine ⟨h.timer, fun d => ?_, fun _ d => Or.inl (hout d), by simp, by simp, h.exited,
      h.main_stop, h.freed, fun _ => rfl⟩
    exact (h.places d).frame rfl rfl rfl (by simp [hevent]) (by simp [hgate])

/-- The timer goes on in its loops and touches no lock. -/
theorem ThreadsInv.goOn {devs : List D} {s : Threads D} (h : ThreadsInv devs s) (hl : s.leaving = .no)
    (hpc : s.timer.pc ≠ .stopped) {t : TimerState D} {l : Leaving D} (htimer : TimerInv devs t)
    (hdone : t.done = s.timer.done) (hfsh : t.fsh = s.timer.fsh) (hctl : t.ctl = s.timer.ctl)
    (hevent : ∀ e, s.eventFocus = some e →
      ({ s with timer := t, leaving := l } : Threads D).eventFocus = some e)
    (hgate : s.gateFocus = none) (hleave : l = .no ∨
      ∃ d, l = .event d ∧ (s.event d).waiter = .past ∧ t.pc ≠ .stopped) :
    ThreadsInv devs { s with timer := t, leaving := l } := by
  have hexit : ∀ e, s.exited e → ({ s with timer := t, leaving := l } : Threads D).exited e := by
    intro e he
    rw [Threads.exited, hctl]
    exact he
  constructor
  · exact htimer
  · intro e
    refine (h.places e).frame (congrFun hdone e) (congrFun hfsh e) (congrFun hctl e) (hevent e)
      fun he => ?_
    simp [hgate] at he
  · intro _
    exact h.leaving_no hl
  · intro e he
    have he' : l = .event e := he
    rcases hleave with hno | ⟨d, hd, hpast, -⟩
    · simp [hno] at he'
    · obtain rfl : d = e := by simpa [hd] using he'
      exact hpast
  · intro e he
    have he' : l = .gate e := he
    rcases hleave with hno | ⟨d, hd, -⟩
    · simp [hno] at he'
    · simp [hd] at he'
  · intro hstop e he
    exact hexit e (h.exited hstop e he)
  · exact h.main_stop
  · intro hmain
    exact absurd (h.freed hmain) hpc
  · intro hstop
    rcases hleave with hno | ⟨d, -, -, hne⟩
    · exact hno
    · exact absurd hstop hne

/-- With `timer_stop` set the loop may end before the devices are counted: they are
gone. -/
theorem ThreadsInv.round {devs : List D} {s : Threads D} (h : ThreadsInv devs s) {fsh event : ℕ} (hl : s.leaving = .no)
    (hpc : s.timer.pc = .release [] fsh event) :
    ThreadsInv devs { s with
      timer := { s.timer with
        pc := if fsh = event ∨ s.timerStop = true then .stopped else .collect devs 0 0 }
      leaving := .no } := by
  have hevent : s.eventFocus = none := by simp [Threads.eventFocus, hl, hpc]
  have hgate : s.gateFocus = none := by simp [Threads.gateFocus, hl, hpc]
  have htimer : TimerInv devs { s.timer with
      pc := if fsh = event ∨ s.timerStop = true then .stopped else .collect devs 0 0 } := by
    by_cases hstop : s.timerStop = true
    · rw [if_pos (Or.inr hstop)]
      exact ⟨h.timer.fsh_iff, h.timer.run_open, fun d hd => (h.exited hstop d hd).1⟩
    · rw [if_congr (or_iff_left hstop) rfl rfl]
      exact timerInv_round h.timer hpc
  apply h.goOn hl (by simp [hpc]) htimer rfl rfl rfl _ hgate
  · exact Or.inl rfl
  · intro e he
    simp [hevent] at he

/-- The timer and the device it is at do not wait for each other. -/
theorem not_both_stuck {devs : List D} {s : Threads D} (h : ThreadsInv devs s) {d : D}
    (htimer : ((s.event d).waiter = .sleep ∨ (s.event d).setter.inside = true) ∧
        (s.event d).waiter.inside = false ∧ (s.gate d).setter = .out ∨
      (s.gate d).waiter.inside = true ∧ (s.gate d).setter = .out)
    (hdevice : s.timer.ctl d = .run ∧ (s.event d).waiter.inside = true ∨
      s.timer.ctl d = .blocked ∧ ((s.gate d).waiter = .sleep ∨ (s.gate d).setter.inside = true) ∨
      s.exited d) : False := by
  have hd := h.places d
  have hgate : (s.gate d).setter = .out := by
    rcases htimer with ⟨-, -, hout⟩ | ⟨-, hout⟩
    · exact hout
    · exact hout
  have hnot : (s.gate d).waiter.inside = true → s.timer.ctl d = .blocked := by
    intro hinside
    exact (hd.gate_blocked fun hout => by simp [hout, Waiter.inside] at hinside).1
  rcases hdevice with ⟨hrun, hinside⟩ | ⟨hblocked, hwait⟩ | ⟨hgone, hout⟩
  · rcases htimer with ⟨-, hnot', -⟩ | ⟨hin, -⟩
    · simp [hnot'] at hinside
    · simp [hrun] at hnot
      simp [hnot] at hin
  · -- the device sleeps at its gate: its flag is up, and it has signalled
    have hsleep : (s.gate d).waiter = .sleep := by
      cases hwait with
      | inl hsleep => exact hsleep
      | inr hin => simp [hgate, Setter.inside] at hin
    have hdone : s.timer.done d = true := by
      simpa [gateGuard, hgate] using hd.gate_ok.sleep hsleep
    have hout := (hd.gate_blocked (by simp [hsleep])).2
    rcases htimer with ⟨hlook | hin, -, -⟩ | ⟨hin, -⟩
    · have hguard := hd.event_ok.sleep hlook
      simp [eventGuard, hdone, hout] at hguard
    · simp [hout, Setter.inside] at hin
    · simp [hsleep, Waiter.inside] at hin
  · rcases htimer with ⟨hlook | hin, -, -⟩ | ⟨hin, -⟩
    · have hguard := hd.event_ok.sleep hlook
      simp [eventGuard, (h.timer.fsh_iff d).mpr hgone, hout] at hguard
    · simp [hout, Setter.inside] at hin
    · have hblocked := hnot hin
      simp [hgone] at hblocked

section Steps
variable [DecidableEq D] {devs : List D} {s t : Threads D}

/-- A step of the lock and the condition variable for the event of `d`. -/
theorem ThreadsInv.setEvent (h : ThreadsInv devs s) {d : D} {c : CondVar}
    (hok : c.Ok (eventGuard s.timer d)) (hat : c.waiter ≠ .out → s.eventFocus = some d)
    (hset : c.setter = .set → s.timer.ctl d = .run)
    (hrun : s.timer.ctl d = .run → c.setter = .out ∨ c.setter = .set)
    (hgate : (s.gate d).waiter ≠ .out → c.setter = .out)
    (hleaving : s.leaving = .event d → c.waiter = .past) (hexit : s.exited d → c.setter = .out) :
    ThreadsInv devs (s.setEvent d c) := by
  have hd := h.places d
  constructor
  · exact h.timer
  · intro e
    change Places s.timer s.eventFocus s.gateFocus e _ (s.gate e)
    by_cases hed : e = d
    · rw [hed, s.setEvent_self]
      exact ⟨hok, hd.gate_ok, hat, hd.gate_at, hset, hrun,
        fun hw => ⟨(hd.gate_blocked hw).1, hgate hw⟩⟩
    · rw [s.setEvent_of_ne c hed]
      exact h.places e
  · exact h.leaving_no
  · intro e hl
    by_cases hed : e = d
    · rw [hed, s.setEvent_self]
      exact hleaving (hed ▸ hl)
    · rw [s.setEvent_of_ne c hed]
      exact h.leaving_event e hl
  · exact h.leaving_gate
  · intro hstop e he
    have hgone := h.exited hstop e he
    refine ⟨hgone.1, ?_⟩
    by_cases hed : e = d
    · rw [hed] at hgone ⊢
      rw [s.setEvent_self]
      exact hexit hgone
    · rw [s.setEvent_of_ne c hed]
      exact hgone.2
  · exact h.main_stop
  · exact h.freed
  · exact h.stopped

/-- A step of the lock and the condition variable for the gate of `d`. -/
theorem ThreadsInv.setGate (h : ThreadsInv devs s) {d : D} {c : CondVar}
    (hok : c.Ok (gateGuard s.timer d)) (hat : c.setter ≠ .out → s.gateFocus = some d)
    (hblocked : c.waiter ≠ .out → s.timer.ctl d = .blocked ∧ (s.event d).setter = .out)
    (hsetter : c.setter = (s.gate d).setter ∨ s.leaving = .no ∧ c.setter = .set) :
    ThreadsInv devs (s.setGate d c) := by
  have hd := h.places d
  constructor
  · exact h.timer
  · intro e
    change Places s.timer s.eventFocus s.gateFocus e (s.event e) _
    by_cases hed : e = d
    · rw [hed, s.setGate_self]
      exact ⟨hd.event_ok, hok, hd.event_at, hat, hd.set_run, hd.run_set, hblocked⟩
    · rw [s.setGate_of_ne c hed]
      exact h.places e
  · intro hl e
    by_cases hed : e = d
    · rw [hed, s.setGate_self]
      cases hsetter with
      | inl hsame => exact hsame ▸ h.leaving_no hl d
      | inr hset => exact Or.inr hset.2
    · rw [s.setGate_of_ne c hed]
      exact h.leaving_no hl e
  · exact h.leaving_event
  · intro e hl
    by_cases hed : e = d
    · rw [hed] at hl ⊢
      rw [s.setGate_self]
      have hl' : s.leaving = .gate d := hl
      cases hsetter with
      | inl hsame => exact hsame ▸ h.leaving_gate d hl'
      | inr hset => simp [hset.1] at hl'
    · rw [s.setGate_of_ne c hed]
      exact h.leaving_gate e hl
  · exact h.exited
  · exact h.main_stop
  · exact h.freed
  · exact h.stopped

/-- The timer gives the `event_lock` of `d` up. -/
theorem ThreadsInv.leaveEvent (h : ThreadsInv devs s) {d : D} {c : CondVar}
    (hl : s.leaving = .event d) (hc : (s.event d).waiterStep (eventGuard s.timer d) = some c) :
    ThreadsInv devs { s.setEvent d c with leaving := .no } := by
  have hd := h.places d
  obtain ⟨hok, hsame⟩ := hd.event_ok.waiterStep hc
  have hpast := h.leaving_event d hl
  have hwaiter : c.waiter = .out := by rw [CondVar.waiter_unlock hpast hc]
  have hfocus : s.eventFocus = some d := by simp [Threads.eventFocus, hl]
  have hgate : s.gateFocus = none := by simp [Threads.gateFocus, hl]
  constructor
  · exact h.timer
  · intro e
    change Places s.timer _ _ e ((s.setEvent d c).event e) (s.gate e)
    by_cases hed : e = d
    · rw [hed, s.setEvent_self]
      refine ⟨hok, hd.gate_ok, fun hw => absurd hwaiter hw, fun hw => ?_, ?_, ?_, ?_⟩
      · exact absurd (h.gate_out (by simp [hgate])) hw
      · rw [hsame]
        exact hd.set_run
      · rw [hsame]
        exact hd.run_set
      · rw [hsame]
        exact hd.gate_blocked
    · rw [s.setEvent_of_ne c hed]
      apply (h.places e).frame rfl rfl rfl
      · intro he
        exact absurd (Option.some.inj (he.symm.trans hfocus)) hed
      · intro he
        simp [hgate] at he
  · intro _ e
    exact Or.inl (h.gate_out (by simp [hgate]))
  · intro e he
    simp at he
  · intro e he
    simp at he
  · intro hstop e he
    have hgone := h.exited hstop e he
    refine ⟨hgone.1, ?_⟩
    by_cases hed : e = d
    · rw [hed] at hgone ⊢
      change ((s.setEvent d c).event d).setter = .out
      rw [s.setEvent_self, hsame]
      exact hgone.2
    · change ((s.setEvent d c).event e).setter = .out
      rw [s.setEvent_of_ne c hed]
      exact hgone.2
  · exact h.main_stop
  · exact h.freed
  · intro _
    rfl

/-- The signal at the gate of `d`, and the end of the section. -/
theorem ThreadsInv.leaveGate (h : ThreadsInv devs s) {d : D} {c : CondVar}
    (hl : s.leaving = .gate d) (hc : (s.gate d).setterStep = some c) :
    ThreadsInv devs
      { s.setGate d c with leaving := if c.setter = .out then .no else .gate d } := by
  have hd := h.places d
  have hpast := h.leaving_gate d hl
  have hevent : s.eventFocus = none := by simp [Threads.eventFocus, hl]
  have hfocus : s.gateFocus = some d := by simp [Threads.gateFocus, hl]
  have hset : (s.gate d).setter ≠ .set := fun hset => by simp [hset] at hpast
  have hok := hd.gate_ok.setterStep hset hc
  -- after the signal the timer is still inside, after the unlock it is out
  obtain ⟨hnext, hwaiter, -⟩ :=
    CondVar.setter_leave (fun hout => by simp [hout] at hpast) hset hc
  constructor
  · exact h.timer
  · intro e
    change Places s.timer _ _ e (s.event e) ((s.setGate d c).gate e)
    by_cases hed : e = d
    · rw [hed, s.setGate_self]
      refine ⟨hd.event_ok, hok, fun hw => ?_, fun hw => ?_, hd.set_run, hd.run_set,
        fun hw => hd.gate_blocked (hwaiter hw)⟩
      · exact absurd (h.event_out (by simp [hevent])) hw
      · simp [Threads.gateFocus, hw]
    · rw [s.setGate_of_ne c hed]
      apply (h.places e).frame rfl rfl rfl
      · intro he
        simp [hevent] at he
      · intro he
        exact absurd (Option.some.inj (he.symm.trans hfocus)) hed
  · intro _ e
    by_cases hed : e = d
    · rename_i hno
      have hout : c.setter = .out := by
        by_contra hne
        simp [hne] at hno
      change ((s.setGate d c).gate e).setter = _ ∨ _
      rw [hed, s.setGate_self]
      exact Or.inl hout
    · change ((s.setGate d c).gate e).setter = _ ∨ ((s.setGate d c).gate e).setter = _
      rw [s.setGate_of_ne c hed]
      exact Or.inl (h.gate_out fun he => hed (Option.some.inj (he.symm.trans hfocus)))
  · intro e he
    dsimp only at he
    split_ifs at he
  · intro e he
    dsimp only at he
    split_ifs at he with hout
    obtain rfl : d = e := by simpa using he
    change ((s.setGate d c).gate d).setter = _ ∨ ((s.setGate d c).gate d).setter = _
    rw [s.setGate_self]
    exact Or.inr (hnext.resolve_right hout)
  · exact h.exited
  · exact h.main_stop
  · exact h.freed
  · intro hpc
    have hno := h.stopped hpc
    rw [hl] at hno
    cases hno

/-- The timer has seen that `d` is through, and counts it. -/
theorem ThreadsInv.count (h : ThreadsInv devs s) (hnodup : devs.Nodup) {d : D} {rest : List D}
    {fsh event fsh' : ℕ} (hl : s.leaving = .no) (hpc : s.timer.pc = .collect (d :: rest) fsh event)
    (hpast : (s.event d).waiter = .past)
    (hstep : timerRoutine devs s.timer =
      some { s.timer with pc := .collect rest fsh' (event + 1) }) :
    ThreadsInv devs { s with
      timer := { s.timer with pc := .collect rest fsh' (event + 1) }
      leaving := .event d } := by
  have hevent : s.eventFocus = some d := by simp [Threads.eventFocus, hl, hpc]
  have hgate : s.gateFocus = none := by simp [Threads.gateFocus, hl, hpc]
  apply h.goOn hl (by simp [hpc]) (timerInv_timerRoutine hnodup h.timer hstep) rfl rfl rfl _ hgate
  · exact Or.inr ⟨d, rfl, hpast, by simp⟩
  · intro e he
    exact hevent.symm.trans he

theorem ThreadsInv.tick (h : ThreadsInv devs s) (hnodup : devs.Nodup) {fsh event : ℕ}
    (hl : s.leaving = .no) (hpc : s.timer.pc = .collect [] fsh event)
    (hstep : timerRoutine devs s.timer =
      some { s.timer with time := s.timer.time + 1, pc := .release devs fsh event }) :
    ThreadsInv devs { s with
      timer := { s.timer with time := s.timer.time + 1, pc := .release devs fsh event }
      leaving := .no } := by
  have hevent : s.eventFocus = none := by simp [Threads.eventFocus, hl, hpc]
  have hgate : s.gateFocus = none := by simp [Threads.gateFocus, hl, hpc]
  apply h.goOn hl (by simp [hpc]) (timerInv_timerRoutine hnodup h.timer hstep) rfl rfl rfl _ hgate
  · exact Or.inl rfl
  · intro e he
    simp [hevent] at he

/-- `done` is cleared under the `timer_lock`, while nobody looks at it under the
`event_lock`. -/
theorem ThreadsInv.store (h : ThreadsInv devs s) (hnodup : devs.Nodup) {d : D} {rest : List D}
    {fsh event : ℕ} {c : CondVar} (hl : s.leaving = .no)
    (hpc : s.timer.pc = .release (d :: rest) fsh event) (hset : (s.gate d).setter = .set)
    (hc : (s.gate d).setterStep = some c)
    (hstep : timerRoutine devs s.timer = some { s.timer with
      done := Function.update s.timer.done d false
      pc := .release rest fsh event }) :
    ThreadsInv devs { s.setGate d c with
      timer := { s.timer with
        done := Function.update s.timer.done d false
        pc := .release rest fsh event }
      leaving := .gate d } := by
  have hd := h.places d
  have hevent : s.eventFocus = none := by simp [Threads.eventFocus, hl, hpc]
  have hgate : s.gateFocus = some d := by simp [Threads.gateFocus, hl, hpc]
  have hcell := CondVar.setter_set hset hc
  constructor
  · exact timerInv_timerRoutine hnodup h.timer hstep
  · intro e
    change Places _ _ _ e (s.event e) ((s.setGate d c).gate e)
    by_cases hed : e = d
    · rw [hed, s.setGate_self]
      refine ⟨hd.event_ok.out (h.event_out (by simp [hevent])) _, hd.gate_ok.set hset hc _,
        fun hw => absurd (h.event_out (by simp [hevent])) hw, fun _ => rfl, hd.set_run, hd.run_set,
        fun hw => hd.gate_blocked ?_⟩
      rw [hcell] at hw
      exact hw
    · rw [s.setGate_of_ne c hed]
      refine (h.places e).frame (Function.update_of_ne hed _ _) rfl rfl (fun he => ?_) fun he => ?_
      · simp [hevent] at he
      · exact absurd (Option.some.inj (he.symm.trans hgate)) hed
  · intro hno
    cases hno
  · intro e he
    cases he
  · intro e he
    obtain rfl : d = e := by simpa using he
    change ((s.setGate d c).gate d).setter = _ ∨ _
    rw [s.setGate_self, hcell]
    exact Or.inl rfl
  · exact h.exited
  · exact h.main_stop
  · intro hmain
    have hstop := h.freed hmain
    rw [hpc] at hstop
    cases hstop
  · intro hstop
    cases hstop

/-- The device stores its flag under the `event_lock`, while it is not waiting at its gate. -/
theorem ThreadsInv.flag (h : ThreadsInv devs s) {d : D} (hd : d ∈ devs) {c : CondVar}
    {t' : TimerState D} (hrun : s.timer.ctl d = .run) (hset : (s.event d).setter = .set)
    (hc : (s.event d).setterStep = some c) (htimer : TimerInv devs t') (hpc : t'.pc = s.timer.pc)
    (hleft : t'.ctl d ≠ .run) (hothers : ∀ e ≠ d,
      t'.done e = s.timer.done e ∧ t'.fsh e = s.timer.fsh e ∧ t'.ctl e = s.timer.ctl e) :
    ThreadsInv devs { s.setEvent d c with timer := t' } := by
  have hplaces := h.places d
  have hcell := CondVar.setter_set hset hc
  have hgate : (s.gate d).waiter = .out := by
    by_contra hout
    have hblocked := (hplaces.gate_blocked hout).1
    rw [hrun] at hblocked
    cases hblocked
  have hstay : s.timerStop ≠ true := by
    intro hstop
    have hgone := (h.exited hstop d hd).1
    rw [hrun] at hgone
    cases hgone
  constructor
  · exact htimer
  · intro e
    have hevent : ({ s.setEvent d c with timer := t' } : Threads D).eventFocus = s.eventFocus := by
      simp only [Threads.eventFocus, hpc]
      rfl
    have hgates : ({ s.setEvent d c with timer := t' } : Threads D).gateFocus = s.gateFocus := by
      simp only [Threads.gateFocus, hpc]
      rfl
    rw [hevent, hgates]
    change Places t' _ _ e ((s.setEvent d c).event e) (s.gate e)
    by_cases hed : e = d
    · rw [hed, s.setEvent_self]
      refine ⟨hplaces.event_ok.set hset hc _, hplaces.gate_ok.out hgate _, ?_, hplaces.gate_at, ?_,
        fun hr => absurd hr hleft, fun hw => absurd hgate hw⟩
      · rw [hcell]
        exact hplaces.event_at
      · rw [hcell]
        simp
    · rw [s.setEvent_of_ne c hed]
      obtain ⟨hdone, hfsh, hctl⟩ := hothers e hed
      exact (h.places e).frame hdone hfsh hctl id id
  · exact h.leaving_no
  · intro e he
    change ((s.setEvent d c).event e).waiter = .past
    have hpast := h.leaving_event e he
    by_cases hed : e = d
    · rw [hed] at hpast ⊢
      rw [s.setEvent_self, hcell]
      exact hpast
    · rw [s.setEvent_of_ne c hed]
      exact hpast
  · exact h.leaving_gate
  · intro hstop
    exact absurd hstop hstay
  · exact h.main_stop
  · intro hmain
    exact absurd (h.main_stop (by rw [show s.main = .freed from hmain]; simp)) hstay
  · intro hstop
    exact h.stopped (hpc ▸ hstop)

/-- The device leaves `next_slot` with its unlock. -/
theorem ThreadsInv.wake (h : ThreadsInv devs s) {d : D} (hd : d ∈ devs) {c : CondVar}
    {t' : TimerState D} (hblocked : s.timer.ctl d = .blocked) (hout : (s.event d).setter = .out)
    (hpast : (s.gate d).waiter = .past)
    (hc : (s.gate d).waiterStep (gateGuard s.timer d) = some c) (hw : OsSim.Os.wake s.timer d = some t') :
    ThreadsInv devs { s.setGate d c with timer := t' } := by
  have hplaces := h.places d
  have htimer := timerInv_wake h.timer hw
  rw [OsSim.Os.wake] at hw
  split_ifs at hw
  obtain rfl := Option.some.inj hw
  obtain ⟨hok, hsame⟩ := hplaces.gate_ok.waiterStep hc
  have hcell := CondVar.waiter_unlock hpast hc
  have hstay : s.timerStop ≠ true := by
    intro hstop
    have hgone := (h.exited hstop d hd).1
    rw [hblocked] at hgone
    cases hgone
  constructor
  · exact htimer
  · intro e
    change Places _ s.eventFocus s.gateFocus e (s.event e) ((s.setGate d c).gate e)
    by_cases hed : e = d
    · rw [hed, s.setGate_self]
      refine ⟨hplaces.event_ok, hok, hplaces.event_at, ?_, ?_, fun _ => Or.inl hout, ?_⟩
      · rw [hsame]
        exact hplaces.gate_at
      · simp [hout]
      · simp [hcell]
    · rw [s.setGate_of_ne c hed]
      exact (h.places e).frame rfl rfl (Function.update_of_ne hed _ _) id id
  · intro hl e
    change ((s.setGate d c).gate e).setter = _ ∨ ((s.setGate d c).gate e).setter = _
    by_cases hed : e = d
    · rw [hed, s.setGate_self, hsame]
      exact h.leaving_no hl d
    · rw [s.setGate_of_ne c hed]
      exact h.leaving_no hl e
  · exact h.leaving_event
  · intro e hl
    change ((s.setGate d c).gate e).setter = _ ∨ ((s.setGate d c).gate e).setter = _
    by_cases hed : e = d
    · rw [hed] at hl ⊢
      rw [s.setGate_self, hsame]
      exact h.leaving_gate d hl
    · rw [s.setGate_of_ne c hed]
      exact h.leaving_gate e hl
  · intro hstop
    exact absurd hstop hstay
  · exact h.main_stop
  · exact h.freed
  · exact h.stopped

theorem threadsInv_timer (hnodup : devs.Nodup) (h : ThreadsInv devs s) (hmove : TimerMove devs s t) :
    ThreadsInv devs t := by
  cases hmove with
  | enter hl => exact h.enter hl
  | leaveEvent hl hc => exact h.leaveEvent hl hc
  | leaveGate hl hc => exact h.leaveGate hl hc
  | @look d rest fsh event c hl hpc hne hc =>
    have hd := h.places d
    obtain ⟨hok, hsame⟩ := hd.event_ok.waiterStep hc
    apply h.setEvent hok
    · intro _
      simp [Threads.eventFocus, hl, hpc]
    · rw [hsame]
      exact hd.set_run
    · rw [hsame]
      exact hd.run_set
    · intro hw
      rw [hsame]
      exact (hd.gate_blocked hw).2
    · intro hleaving
      simp [hl] at hleaving
    · intro hexit
      rw [hsame]
      exact hexit.2
  | count hl hpc hpast hstep => exact h.count hnodup hl hpc hpast hstep
  | tick hl hpc hstep => exact h.tick hnodup hl hpc hstep
  | @lock d rest fsh event c hl hpc hne hc =>
    have hd := h.places d
    have hout : (s.gate d).setter = .out := (h.leaving_no hl d).resolve_right hne
    have hcell := CondVar.setter_lock hout hc
    apply h.setGate (hd.gate_ok.setterStep (by simp [hout]) hc)
    · intro _
      simp [Threads.gateFocus, hl, hpc]
    · rw [hcell]
      exact hd.gate_blocked
    · rw [hcell]
      exact Or.inr ⟨hl, rfl⟩
  | store hl hpc hset hc hstep => exact h.store hnodup hl hpc hset hc hstep
  | round hl hpc => exact h.round hl hpc

theorem threadsInv_device {d : D} (hd : d ∈ devs) (h : ThreadsInv devs s) (hmove : DeviceMove s d t) :
    ThreadsInv devs t := by
  have hplaces := h.places d
  cases hmove with
  | @lock c hrun hne hc =>
    have hout : (s.event d).setter = .out := (hplaces.run_set hrun).resolve_right hne
    have hcell := CondVar.setter_lock hout hc
    apply h.setEvent (hplaces.event_ok.setterStep (by simp [hout]) hc)
    · rw [hcell]
      exact hplaces.event_at
    · intro _
      exact hrun
    · intro _
      exact Or.inr (by rw [hcell])
    · intro hw
      have hblocked := (hplaces.gate_blocked hw).1
      simp [hrun] at hblocked
    · intro hl
      rw [hcell]
      exact h.leaving_event d hl
    · intro hexit
      simp [hexit.1] at hrun
  | @next c t' hrun hset hc hdone =>
    have htimer := timerInv_setDone h.timer hdone
    rw [setDone] at hdone
    split_ifs at hdone
    obtain rfl := Option.some.inj hdone
    apply h.flag hd hrun hset hc htimer rfl (by simp)
    intro e hed
    simp [hed]
  | @detach c t' hrun hset hc hdetach =>
    have htimer := timerInv_detachEvent h.timer hdetach
    rw [detachEvent] at hdetach
    split_ifs at hdetach
    obtain rfl := Option.some.inj hdetach
    apply h.flag hd hrun hset hc htimer rfl (by simp)
    intro e hed
    simp [hed]
  | @signal c hctl hne hc =>
    have hnotset : (s.event d).setter ≠ .set := fun hset => hctl (hplaces.set_run hset)
    have hgate : (s.gate d).waiter = .out := by
      by_contra hw
      exact hne (hplaces.gate_blocked hw).2
    obtain ⟨hnext, hwaiter, hpast⟩ := CondVar.setter_leave hne hnotset hc
    apply h.setEvent (hplaces.event_ok.setterStep hnotset hc)
    · intro hw
      exact hplaces.event_at (hwaiter hw)
    · intro hset
      simp [hset] at hnext
    · intro hrun
      exact absurd hrun hctl
    · intro hw
      exact absurd hgate hw
    · intro hl
      exact hpast (h.leaving_event d hl)
    · intro hexit
      exact absurd hexit.2 hne
  | @look c hblocked hout hne hc =>
    obtain ⟨hok, hsame⟩ := hplaces.gate_ok.waiterStep hc
    apply h.setGate hok
    · rw [hsame]
      exact hplaces.gate_at
    · intro _
      exact ⟨hblocked, hout⟩
    · exact Or.inl hsame
  | wake hblocked hout hpast hc hw => exact h.wake hd hblocked hout hpast hc hw

theorem threadsInv_step (hnodup : devs.Nodup) (h : ThreadsInv devs s) {label : ThreadLabel D}
    (hstep : threadsStep devs s label = some t) : ThreadsInv devs t := by
  cases label with
  | timer => exact threadsInv_timer hnodup h (timerThread_move hstep)
  | device d leave =>
    rw [threadsStep] at hstep
    split_ifs at hstep with hd
    exact threadsInv_device hd h (deviceThread_move hstep)
  | main =>
    rw [threadsStep, mainThread] at hstep
    cases hmain : s.main with
    | join =>
      rw [hmain] at hstep
      dsimp only at hstep
      split_ifs at hstep with hall
      obtain rfl := Option.some.inj hstep
      exact ⟨h.timer, h.places, h.leaving_no, h.leaving_event, h.leaving_gate, fun _ => hall,
        fun _ => rfl, by simp, h.stopped⟩
    | stop =>
      rw [hmain] at hstep
      dsimp only at hstep
      split_ifs at hstep with hstopped
      obtain rfl := Option.some.inj hstep
      have hpc : s.timer.pc = .stopped := by
        cases hpc : s.timer.pc with
        | stopped => rfl
        | collect rest fsh event => simp [hpc, TimerPc.isStopped] at hstopped
        | release rest fsh event => simp [hpc, TimerPc.isStopped] at hstopped
      exact ⟨h.timer, h.places, h.leaving_no, h.leaving_event, h.leaving_gate, h.exited,
        fun _ => h.main_stop (by simp [hmain]), fun _ => hpc, h.stopped⟩
    | freed => simp [hmain] at hstep
  | spuriousEvent d =>
    obtain ⟨c, hc, rfl⟩ := Option.map_eq_some_iff.mp hstep
    have hd := h.places d
    obtain ⟨hok, hsame⟩ := CondVar.ok_spurious (eventGuard s.timer d) hc
    rw [CondVar.spurious] at hc
    split_ifs at hc with hsleep
    apply h.setEvent hok
    · intro _
      exact hd.event_at (by simp [hsleep])
    · rw [hsame]
      exact hd.set_run
    · rw [hsame]
      exact hd.run_set
    · intro hw
      rw [hsame]
      exact (hd.gate_blocked hw).2
    · intro hl
      have hpast := h.leaving_event d hl
      simp [hsleep] at hpast
    · intro hexit
      rw [hsame]
      exact hexit.2
  | spuriousGate d =>
    obtain ⟨c, hc, rfl⟩ := Option.map_eq_some_iff.mp hstep
    have hd := h.places d
    obtain ⟨hok, hsame⟩ := CondVar.ok_spurious (gateGuard s.timer d) hc
    rw [CondVar.spurious] at hc
    split_ifs at hc with hsleep
    apply h.setGate hok
    · rw [hsame]
      exact hd.gate_at
    · intro _
      exact hd.gate_blocked (by simp [hsleep])
    · exact Or.inl hsame

/-! ### Whole runs -/

theorem ThreadsReachable.inv (hnodup : devs.Nodup) (h : ThreadsReachable devs s) :
    ThreadsInv devs s := by
  induction h with
  | init h0 =>
    obtain rfl := h0
    exact threadsInv_start devs
  | step _ _ hnext ih => exact threadsInv_step hnodup ih hnext

/-- A step of the sections, or nothing there, or the end of the timer's loop where it
finds `timer_stop` set. -/
def OneSection (devs : List D) (s t : Threads D) : Prop :=
  t.timer = s.timer ∨ (∃ l, timerStep devs s.timer l = some t.timer) ∨
    s.timerStop = true ∧ t.timer = { s.timer with pc := .stopped }

theorem section_of_step {label : ThreadLabel D} (hstep : threadsStep devs s label = some t) :
    OneSection devs s t ∧ (s.timerStop = true → t.timerStop = true) := by
  cases label with
  | timer =>
    cases timerThread_move hstep with
    | enter hl =>
      refine ⟨?_, id⟩
      by_cases hstop : s.timerStop = true
      · exact Or.inr (Or.inr ⟨hstop, if_pos hstop⟩)
      · exact Or.inl (if_neg hstop)
    | leaveEvent | leaveGate | look | lock => exact ⟨Or.inl rfl, id⟩
    | count hl hpc hpast hroutine => exact ⟨Or.inr (Or.inl ⟨.timer, hroutine⟩), id⟩
    | tick hl hpc hroutine => exact ⟨Or.inr (Or.inl ⟨.timer, hroutine⟩), id⟩
    | store hl hpc hset hc hroutine => exact ⟨Or.inr (Or.inl ⟨.timer, hroutine⟩), id⟩
    | @round fsh event hl hpc =>
      refine ⟨?_, id⟩
      by_cases hstop : s.timerStop = true
      · exact Or.inr (Or.inr ⟨hstop, by rw [if_pos (Or.inr hstop)]⟩)
      · refine Or.inr (Or.inl ⟨.timer, ?_⟩)
        rw [timerStep, timerRoutine, hpc]
        dsimp only
        rw [if_congr (or_iff_left hstop) rfl rfl]
  | device d leave =>
    rw [threadsStep] at hstep
    split_ifs at hstep with hd
    cases deviceThread_move hstep with
    | lock | signal | look => exact ⟨Or.inl rfl, id⟩
    | next hrun hset hc hdone =>
      exact ⟨Or.inr (Or.inl ⟨.setDone d, (if_pos hd).trans hdone⟩), id⟩
    | detach hrun hset hc hdetach =>
      exact ⟨Or.inr (Or.inl ⟨.detach d, (if_pos hd).trans hdetach⟩), id⟩
    | wake hblocked hout hpast hc hw => exact ⟨Or.inr (Or.inl ⟨.wake d, (if_pos hd).trans hw⟩), id⟩
  | main =>
    rw [threadsStep, mainThread] at hstep
    cases hmain : s.main with
    | join =>
      rw [hmain] at hstep
      dsimp only at hstep
      split_ifs at hstep
      obtain rfl := Option.some.inj hstep
      exact ⟨Or.inl rfl, fun _ => rfl⟩
    | stop =>
      rw [hmain] at hstep
      dsimp only at hstep
      split_ifs at hstep
      obtain rfl := Option.some.inj hstep
      exact ⟨Or.inl rfl, id⟩
    | freed => simp [hmain] at hstep
  | spuriousEvent d =>
    obtain ⟨c, -, rfl⟩ := Option.map_eq_some_iff.mp hstep
    exact ⟨Or.inl rfl, id⟩
  | spuriousGate d =>
    obtain ⟨c, -, rfl⟩ := Option.map_eq_some_iff.mp hstep
    exact ⟨Or.inl rfl, id⟩

theorem timerStep_stopped {t : TimerState D} (h : TimerInv devs t) (hpc : t.pc = .stopped)
    (l : TimerLabel D) : timerStep devs t l = none := by
  have hgone := h.phase
  rw [PhaseOk, hpc] at hgone
  cases l with
  | timer => simp [timerStep, timerRoutine, hpc]
  | setDone d =>
    rw [timerStep]
    split_ifs with hd
    · simp [setDone, hgone d hd]
    · rfl
  | wake d =>
    rw [timerStep]
    split_ifs with hd
    · simp [wake, hgone d hd]
    · rfl
  | detach d =>
    rw [timerStep]
    split_ifs with hd
    · simp [detachEvent, hgone d hd]
    · rfl

/-- The sections alone: the run without locks, except that the timer may have ended one
round early when `timer_stop` was set. -/
def FollowsSections (devs : List D) (s : Threads D) : Prop :=
  ∃ t, TimerReachable devs t ∧
    (s.timer = t ∨ s.timerStop = true ∧ s.timer = { t with pc := .stopped })

theorem followsSections (hnodup : devs.Nodup) (h : ThreadsReachable devs s) :
    FollowsSections devs s := by
  induction h with
  | init h0 =>
    obtain rfl := h0
    exact ⟨_, .init rfl, Or.inl rfl⟩
  | @step s1 label s2 hs _ hnext ih =>
    obtain ⟨t, ht, hsame⟩ := ih
    obtain ⟨hmove, hstop⟩ := section_of_step hnext
    rw [OneSection] at hmove
    cases hsame with
    | inl heq =>
      rw [heq] at hmove
      rcases hmove with heq' | ⟨l, hl⟩ | ⟨hset, hend⟩
      · exact ⟨t, ht, Or.inl heq'⟩
      · exact ⟨_, .step ht trivial hl, Or.inl rfl⟩
      · exact ⟨t, ht, Or.inr ⟨hstop hset, hend⟩⟩
    | inr hended =>
      obtain ⟨hset, heq⟩ := hended
      have hpc : s1.timer.pc = .stopped := by rw [heq]
      rcases hmove with heq' | ⟨l, hl⟩ | ⟨-, hend⟩
      · exact ⟨t, ht, Or.inr ⟨hstop hset, heq'.trans heq⟩⟩
      · rw [timerStep_stopped (ThreadsReachable.inv hnodup hs).timer hpc] at hl
        cases hl
      · exact ⟨t, ht, Or.inr ⟨hstop hset, by rw [hend, heq]⟩⟩

/-! ### Nobody is stuck -/

/-- A device stands still because the timer has the lock it needs, because it sleeps, or
because it has ended. -/
theorem device_stuck (h : ThreadsInv devs s) {d : D} (hstuck : deviceThread s d false = none) :
    s.timer.ctl d = .run ∧ (s.event d).waiter.inside = true ∨
    s.timer.ctl d = .blocked ∧ ((s.gate d).waiter = .sleep ∨ (s.gate d).setter.inside = true) ∨
    s.exited d := by
  have hd := h.places d
  rw [deviceThread] at hstuck
  cases hctl : s.timer.ctl d with
  | run =>
    refine Or.inl ⟨rfl, ?_⟩
    rw [hctl] at hstuck
    cases hc : (s.event d).setterStep with
    | none => exact (CondVar.setter_stuck hc).2
    | some c =>
      rw [hc] at hstuck
      simp [setDone, hctl] at hstuck
      split_ifs at hstuck
  | blocked =>
    refine Or.inr (Or.inl ⟨rfl, ?_⟩)
    rw [hctl] at hstuck
    dsimp only at hstuck
    by_cases hout : (s.event d).setter = .out
    · rw [if_neg (not_not.mpr hout)] at hstuck
      cases hc : (s.gate d).waiterStep (gateGuard s.timer d) with
      | none =>
        cases CondVar.waiter_stuck hc with
        | inl hsleep => exact Or.inl hsleep
        | inr hheld => exact Or.inr hheld.2
      | some c =>
        rw [hc, Option.bind_some] at hstuck
        split_ifs at hstuck with hpast
        have hopen : s.timer.done d = false := by simpa [gateGuard] using hd.gate_ok.past hpast
        simp [wake, hctl, hopen] at hstuck
    · rw [if_pos hout, Option.map_eq_none_iff] at hstuck
      exact absurd (CondVar.setter_stuck hstuck).1 hout
  | gone =>
    refine Or.inr (Or.inr ⟨hctl, ?_⟩)
    rw [hctl] at hstuck
    dsimp only at hstuck
    by_contra hout
    rw [if_pos hout, Option.map_eq_none_iff] at hstuck
    exact hout (CondVar.setter_stuck hstuck).1

/-- The timer stands still because it has stopped, or at a device that has the lock or
still has to tell it that it is through. -/
theorem timer_stuck (h : ThreadsInv devs s) (hstuck : timerThread devs s = none) :
    s.timer.pc = .stopped ∨ ∃ d ∈ devs,
      ((s.event d).waiter = .sleep ∨ (s.event d).setter.inside = true) ∧
        (s.event d).waiter.inside = false ∧ (s.gate d).setter = .out ∨
      (s.gate d).waiter.inside = true ∧ (s.gate d).setter = .out := by
  have hphase := h.timer.phase
  rw [PhaseOk] at hphase
  rw [timerThread] at hstuck
  cases hl : s.leaving with
  | enter =>
    rw [hl] at hstuck
    cases hstuck
  | event d =>
    rw [hl, Option.map_eq_none_iff, CondVar.waiterStep, h.leaving_event d hl] at hstuck
    cases hstuck
  | gate d =>
    rw [hl, Option.map_eq_none_iff] at hstuck
    have hpast := h.leaving_gate d hl
    simp [(CondVar.setter_stuck hstuck).1] at hpast
  | no =>
    rw [hl] at hstuck
    dsimp only at hstuck
    cases hpc : s.timer.pc with
    | stopped => exact Or.inl rfl
    | collect rest fsh event =>
      rw [hpc] at hstuck hphase
      obtain ⟨seen, hdevs, -⟩ := hphase
      cases rest with
      | nil => simp [timerRoutine, hpc] at hstuck
      | cons d rest =>
        have hgate : (s.gate d).setter = .out := h.gate_out (by simp [Threads.gateFocus, hl, hpc])
        refine Or.inr ⟨d, by simp [hdevs], Or.inl ?_⟩
        dsimp only at hstuck
        split_ifs at hstuck with hpast
        · have hready := (h.places d).event_ok.past hpast
          rw [eventGuard] at hready
          simp [timerRoutine, hpc, hready] at hstuck
        · rw [Option.map_eq_none_iff] at hstuck
          cases CondVar.waiter_stuck hstuck with
          | inl hsleep => exact ⟨Or.inl hsleep, by rw [hsleep]; rfl, hgate⟩
          | inr hheld => exact ⟨Or.inr hheld.2, hheld.1, hgate⟩
    | release rest fsh event =>
      rw [hpc] at hstuck hphase
      obtain ⟨seen, hdevs, -⟩ := hphase
      cases rest with
      | nil => simp at hstuck
      | cons d rest =>
        refine Or.inr ⟨d, by simp [hdevs], Or.inr ?_⟩
        cases hc : (s.gate d).setterStep with
        | none =>
          have hheld := CondVar.setter_stuck hc
          exact ⟨hheld.2, hheld.1⟩
        | some c =>
          dsimp only at hstuck
          rw [hc] at hstuck
          simp [timerRoutine, hpc] at hstuck
          split_ifs at hstuck

/-- Until `stop_timer` has returned, some thread has a next step. -/
theorem ThreadsInv.moves (h : ThreadsInv devs s) (hmain : s.main ≠ .freed) :
    ∃ label t, label.isThread = true ∧ threadsStep devs s label = some t := by
  by_contra hnone
  have hstuck : ∀ label : ThreadLabel D, label.isThread = true →
      threadsStep devs s label = none := by
    intro label hthread
    cases hstep : threadsStep devs s label with
    | none => rfl
    | some t => exact absurd ⟨label, t, hthread, hstep⟩ hnone
  have hdevice : ∀ d ∈ devs, deviceThread s d false = none := by
    intro d hd
    have hd' := hstuck (.device d false) rfl
    rwa [threadsStep, if_pos hd] at hd'
  rcases timer_stuck h (hstuck .timer rfl) with hpc | ⟨d, hd, hwait⟩
  · -- the timer is through: so are the devices, and `main` goes on
    have hgone := h.timer.phase
    rw [PhaseOk, hpc] at hgone
    have hexited : ∀ d ∈ devs, s.exited d := by
      intro d hd
      rcases device_stuck h (hdevice d hd) with ⟨hrun, -⟩ | ⟨hblocked, -⟩ | hexit
      · simp [hgone d hd] at hrun
      · simp [hgone d hd] at hblocked
      · exact hexit
    have hmain' := hstuck .main rfl
    rw [threadsStep, mainThread] at hmain'
    cases hcase : s.main with
    | join => simp [hcase, if_pos hexited] at hmain'
    | stop => simp [hcase, hpc, TimerPc.isStopped] at hmain'
    | freed => exact hmain hcase
  · exact not_both_stuck h hwait (device_stuck h (hdevice d hd))

/-- What the threads and `main` rely on. -/
structure Awake (devs : List D) (s : Threads D) : Prop where
  sections : FollowsSections devs s
  step : ∀ label t, threadsStep devs s label = some t → OneSection devs s t
  exclusive : ∀ d, ¬((s.event d).waiter.inside = true ∧ (s.event d).setter.inside = true) ∧
    ¬((s.gate d).waiter.inside = true ∧ (s.gate d).setter.inside = true)
  timer_asleep : ∀ d, (s.event d).waiter = .sleep →
    s.timer.done d = false ∧ s.timer.fsh d = false ∨ (s.event d).setter = .signal
  device_asleep : ∀ d, (s.gate d).waiter = .sleep →
    s.timer.done d = true ∨ (s.gate d).setter = .signal
  moves : s.main ≠ .freed →
    ∃ label t, label.isThread = true ∧ threadsStep devs s label = some t
  freed : s.main = .freed → s.timer.pc = .stopped ∧
    ∀ d ∈ devs, s.exited d ∧ s.event d = .idle ∧ s.gate d = .idle

/-- In every interleaving of the locks, waits, signals and stores of the timer, the
devices and `main`, with wakeups for no reason: nobody sleeps for good, somebody can
always move, and the locks are destroyed when nobody uses them any more. -/
theorem no_wakeup_lost (hnodup : devs.Nodup) (h : ThreadsReachable devs s) : Awake devs s := by
  have hinv := ThreadsReachable.inv hnodup h
  constructor
  · exact followsSections hnodup h
  · intro label t hstep
    exact (section_of_step hstep).1
  · intro d
    exact ⟨(hinv.places d).event_ok.exclusive, (hinv.places d).gate_ok.exclusive⟩
  · intro d hsleep
    have hok := (hinv.places d).event_ok.sleep hsleep
    rwa [eventGuard, Bool.or_eq_false_iff] at hok
  · intro d hsleep
    have hok := (hinv.places d).gate_ok.sleep hsleep
    rwa [gateGuard, Bool.not_eq_false'] at hok
  · exact hinv.moves
  · intro hfreed
    have hpc := hinv.freed hfreed
    have hl := hinv.stopped hpc
    have hevent : s.eventFocus = none := by simp [Threads.eventFocus, hl, hpc]
    have hgate : s.gateFocus = none := by simp [Threads.gateFocus, hl, hpc]
    have hstop := hinv.main_stop (by simp [hfreed])
    refine ⟨hpc, fun d hd => ?_⟩
    have hexit := hinv.exited hstop d hd
    have hwaiter : (s.gate d).waiter = .out := by
      by_contra hw
      have hblocked := ((hinv.places d).gate_blocked hw).1
      simp [hexit.1] at hblocked
    refine ⟨hexit, ?_, ?_⟩
    · rw [CondVar.idle, ← hexit.2, ← hinv.event_out (show s.eventFocus ≠ some d by simp [hevent])]
    · rw [CondVar.idle, ← hwaiter, ← hinv.gate_out (show s.gateFocus ≠ some d by simp [hgate])]

end Steps

/-- Two devices run some slots, then both leave and `main` stops the timer. -/
def shutdownLabels : List (ThreadLabel (Fin 2)) :=
  (List.replicate 20 [.timer, .device 0 false, .device 1 false]).flatten ++
    (List.replicate 30 [.timer, .device 0 true, .device 1 true, .main]).flatten

theorem no_wakeup_lost_shutdown :
    ∃ s : Threads (Fin 2), s.main = .freed ∧ s.timer.time = 2 ∧ Awake [0, 1] s := by
  have hreach := reachable_tryAll (threadsStep [0, 1]) (Threads.start ([0, 1] : List (Fin 2)))
    shutdownLabels (.init rfl)
  exact ⟨_, by decide +kernel, by decide +kernel, no_wakeup_lost (by decide) hreach⟩

end OsSim.Os
