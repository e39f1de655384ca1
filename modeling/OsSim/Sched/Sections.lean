import OsSim.Sched.Waiting

/-!
# The sections under the queue lock (sched.c)

`get_proc` holds `queue_lock` twice, for `queue_empty` and for the search, and
`put_proc` and `add_proc` hold it twice, for `running_list` and for the ready
queue; between the two another caller can come in. The sections of any number of
callers, interleaved in any order, answer what whole calls answer, one after the
other, with one exception: a caller that found a process waiting may find none
when it looks again, and then answers `NULL` and moves the search back to level 0.
-/

namespace OsSim.Sched
open OsSim.Base

variable {C P : Type}

/-! ### The sections -/

/-- The second section of `get_mlq_proc` (`sched.c:85-110`). -/
def takeSection (prio : P → ℕ) (s : SchedState P) : Option P × SchedState P :=
  if 0 < s.currSlot ∧ empty (s.mlqReadyQueue s.currPrio) = false then
    takeFrom prio s s.currPrio (s.currSlot - 1)
  else
    match searchLevel s with
    | some p => takeFrom prio s p (s.slot p - 1)
    | none => takeFrom prio s 0 (s.slot 0 - 1)

/-- The first section of `put_proc` and `add_proc` (`sched.c:137-139`, `sched.c:148-150`). -/
def listSection (s : SchedState P) (p : P) : SchedState P :=
  { s with runningList := enqueue s.runningList p }

theorem getProc_eq_takeSection (prio : P → ℕ) {s : SchedState P} (h : queueEmpty s = false) :
    getProc prio s = takeSection prio s := by
  rw [getProc, getMlqProc, h, if_neg (by simp)]
  rfl

/-- Where a caller is: outside, behind `queue_empty`, or between the two sections of
`put_proc` or `add_proc` with its process. -/
inductive Place (P : Type) where
  | out
  | taking
  | listed (p : P)

/-- The scheduler, its callers, and the answers of `get_proc`, the last one first. -/
structure Sections (C P : Type) where
  sched : SchedState P
  place : C → Place P
  results : List (C × Option P)

def Sections.start : Sections C P := ⟨initScheduler, fun _ => .out, []⟩

inductive Section (C P : Type) where
  | check (c : C)
  | take (c : C)
  | list (c : C) (p : P)
  | ready (c : C)

/-- One section of one caller, of a process of any priority. -/
def sectionStep [DecidableEq C] (prio : P → ℕ) (s : Sections C P) :
    Section C P → Option (Sections C P)
  | .check c =>
    match s.place c with
    | .out =>
      if queueEmpty s.sched then some { s with results := (c, none) :: s.results }
      else some { s with place := Function.update s.place c .taking }
    | _ => none
  | .take c =>
    match s.place c with
    | .taking => some
      { sched := (takeSection prio s.sched).2
        place := Function.update s.place c .out
        results := (c, (takeSection prio s.sched).1) :: s.results }
    | _ => none
  | .list c p =>
    match s.place c with
    | .out => some
      { s with sched := listSection s.sched p, place := Function.update s.place c (.listed p) }
    | _ => none
  | .ready c =>
    match s.place c with
    | .listed p => some
      { s with sched := enqueueLevel prio s.sched p, place := Function.update s.place c .out }
    | _ => none

def sectionSystem [DecidableEq C] (prio : P → ℕ) : System (Sections C P) (Section C P) :=
  .ofStep .start (sectionStep prio)

/-- Everything one section can do. -/
inductive SectionStep [DecidableEq C] (prio : P → ℕ) (s : Sections C P) :
    Section C P → Sections C P → Prop where
  | none (c : C) : queueEmpty s.sched = true →
      SectionStep prio s (.check c) { s with results := (c, none) :: s.results }
  | some (c : C) : queueEmpty s.sched = false →
      SectionStep prio s (.check c) { s with place := Function.update s.place c .taking }
  | take (c : C) : SectionStep prio s (.take c)
      { sched := (takeSection prio s.sched).2
        place := Function.update s.place c .out
        results := (c, (takeSection prio s.sched).1) :: s.results }
  | list (c : C) (p : P) : SectionStep prio s (.list c p)
      { s with sched := listSection s.sched p, place := Function.update s.place c (.listed p) }
  | ready (c : C) (p : P) : SectionStep prio s (.ready c)
      { s with sched := enqueueLevel prio s.sched p, place := Function.update s.place c .out }

theorem sectionStep_step [DecidableEq C] {prio : P → ℕ} {s t : Sections C P} {a : Section C P}
    (h : sectionStep prio s a = some t) : SectionStep prio s a t := by
  cases a with
  | check c =>
    rw [sectionStep] at h
    cases hplace : s.place c with
    | out =>
      simp only [hplace] at h
      cases hempty : queueEmpty s.sched with
      | true =>
        rw [hempty, if_pos rfl] at h
        exact Option.some.inj h ▸ .none c hempty
      | false =>
        rw [hempty, if_neg (by simp)] at h
        exact Option.some.inj h ▸ .some c hempty
    | taking => simp [hplace] at h
    | listed p => simp [hplace] at h
  | take c =>
    rw [sectionStep] at h
    cases hplace : s.place c with
    | taking =>
      simp only [hplace] at h
      exact Option.some.inj h ▸ .take c
    | out => simp [hplace] at h
    | listed p => simp [hplace] at h
  | list c p =>
    rw [sectionStep] at h
    cases hplace : s.place c with
    | out =>
      simp only [hplace] at h
      exact Option.some.inj h ▸ .list c p
    | taking => simp [hplace] at h
    | listed p => simp [hplace] at h
  | ready c =>
    rw [sectionStep] at h
    cases hplace : s.place c with
    | listed p =>
      simp only [hplace] at h
      exact Option.some.inj h ▸ .ready c p
    | out => simp [hplace] at h
    | taking => simp [hplace] at h

/-! ### Whole calls -/

/-- `get_mlq_proc` after its search found every queue empty. -/
def resetCursor (s : SchedState P) : SchedState P :=
  { s with currPrio := 0, currSlot := s.slot 0 - 1 }

/-- A whole call: `get_proc`, a `get_proc` that found a process waiting and then none,
`put_proc` or `add_proc`. Nothing ties a `miss` to what its caller saw before. -/
inductive Whole (C P : Type) where
  | get (c : C)
  | miss (c : C)
  | put (p : P)

structure Calls (C P : Type) where
  sched : SchedState P
  results : List (C × Option P)

def Calls.start : Calls C P := ⟨initScheduler, []⟩

def callStep (prio : P → ℕ) (s : Calls C P) : Whole C P → Option (Calls C P)
  | .get c => some ⟨(getProc prio s.sched).2, (c, (getProc prio s.sched).1) :: s.results⟩
  | .miss c =>
    if queueEmpty s.sched then some ⟨resetCursor s.sched, (c, none) :: s.results⟩ else none
  | .put p => some { s with sched := putProc prio s.sched p }

/-- All of the scheduler but `running_list`, in which whole calls may leave another order. -/
def SameQueues (s t : SchedState P) : Prop := ∃ running, s = { t with runningList := running }

theorem takeSection_running (prio : P → ℕ) (s : SchedState P) (running : QueueT P) :
    takeSection prio { s with runningList := running } =
      ((takeSection prio s).1, { (takeSection prio s).2 with runningList := running }) := by
  have hsearch : searchLevel { s with runningList := running } = searchLevel s := rfl
  rw [takeSection, takeSection, hsearch]
  by_cases hcur : 0 < s.currSlot ∧ empty (s.mlqReadyQueue s.currPrio) = false
  · rw [if_pos hcur, if_pos hcur]
    rfl
  · rw [if_neg hcur, if_neg hcur]
    cases searchLevel s with
    | none => rfl
    | some l => rfl

theorem queueEmpty_running (s : SchedState P) (running : QueueT P) :
    queueEmpty { s with runningList := running } = queueEmpty s := rfl

/-- On empty queues the search finds nothing and takes nothing from level 0. -/
theorem takeSection_empty (prio : P → ℕ) {s : SchedState P} (hc : s.currPrio < maxPrio)
    (h : queueEmpty s = true) : takeSection prio s = (none, resetCursor s) := by
  have hlevel : ∀ i < maxPrio, level s i = [] := (queueEmpty_iff s).mp h
  have hempty : ∀ i < maxPrio, empty (s.mlqReadyQueue i) = true :=
    fun i hi => (empty_iff _).mpr (hlevel i hi)
  have hsearch : searchLevel s = none := by
    rw [searchLevel, List.find?_eq_none]
    intro l hl
    obtain ⟨offset, -, rfl⟩ := List.mem_map.mp hl
    simp [hempty _ (Nat.mod_lt (s.currPrio + offset) (by decide))]
  have hcur : ¬(0 < s.currSlot ∧ empty (s.mlqReadyQueue s.currPrio) = false) := by
    rw [hempty _ hc]
    simp
  have hzero := dequeue_nil prio (s.mlqReadyQueue 0) (hlevel 0 (by decide))
  rw [takeSection, if_neg hcur, hsearch]
  simp only [takeFrom, hzero, Function.update_eq_self]
  rfl

/-! ### The invariant -/

theorem SchedInv.running {prio : P → ℕ} {s : SchedState P} (h : SchedInv prio s)
    (running : QueueT P) : SchedInv prio { s with runningList := running } :=
  ⟨h.uniform, h.curr_lt, h.slot_nonneg, h.slot_le, h.slot_eq⟩

theorem schedInv_enqueueLevel {prio : P → ℕ} {s : SchedState P} (h : SchedInv prio s) (p : P) :
    SchedInv prio (enqueueLevel prio s p) :=
  (schedInv_putProc h p).running s.runningList

theorem schedInv_takeSection {prio : P → ℕ} {s : SchedState P} (h : SchedInv prio s) :
    SchedInv prio (takeSection prio s).2 := by
  cases hempty : queueEmpty s with
  | true =>
    rw [takeSection_empty prio h.curr_lt hempty]
    have hslot := h.slot_eq 0 (by decide)
    refine ⟨h.uniform, (by decide : 0 < maxPrio), ?_, ?_, h.slot_eq⟩
    · change 0 ≤ s.slot 0 - 1
      rw [hslot]
      decide
    · change s.slot 0 - 1 ≤ maxPrio - (0 : ℕ)
      rw [hslot]
      decide
  | false =>
    rw [← getProc_eq_takeSection prio hempty]
    exact (getProc_step prio s h).inv h

section Runs
variable [DecidableEq C] {prio : P → ℕ} {s t : Sections C P}

theorem schedInv_section {a : Section C P} (h : SchedInv prio s.sched)
    (hstep : SectionStep prio s a t) : SchedInv prio t.sched := by
  cases hstep with
  | none c hempty => exact h
  | some c hempty => exact h
  | take c => exact schedInv_takeSection h
  | list c p => exact h.running _
  | ready c p => exact schedInv_enqueueLevel h p

theorem schedInv_sections {ok : Sections C P → Section C P → Prop}
    (h : Reachable (sectionSystem prio) ok s) : SchedInv prio s.sched := by
  apply Reachable.invariant (fun s : Sections C P => SchedInv prio s.sched) _ _ h
  · intro s0 h0
    obtain rfl := h0
    exact schedInv_init prio
  · intro s1 a s2 hs _ hnext
    exact schedInv_section hs (sectionStep_step hnext)

/-! ### Sections are whole calls -/

/-- The same queues and the same answers. -/
def SameAnswers (s : Sections C P) (t : Calls C P) : Prop :=
  SameQueues s.sched t.sched ∧ t.results = s.results

omit [DecidableEq C] in
theorem sameAnswers_take {t : Calls C P} (h : SchedInv prio s.sched) (hsame : SameAnswers s t)
    (c : C) (place : C → Place P) : ∃ a t', callStep prio t a = some t' ∧
      SameAnswers ⟨(takeSection prio s.sched).2, place, (c, (takeSection prio s.sched).1) :: s.results⟩
        t' := by
  obtain ⟨⟨running, hsched⟩, hresults⟩ := hsame
  have hlast : takeSection prio s.sched = ((takeSection prio t.sched).1,
      { (takeSection prio t.sched).2 with runningList := running }) := by
    rw [hsched, takeSection_running]
  have hsame : queueEmpty s.sched = queueEmpty t.sched := by rw [hsched, queueEmpty_running]
  have hcurr : t.sched.currPrio < maxPrio := by
    have hlt := h.curr_lt
    rw [hsched] at hlt
    exact hlt
  rw [hlast]
  cases hempty : queueEmpty t.sched with
  | true =>
    refine ⟨.miss c, _, by rw [callStep, hempty, if_pos rfl], ⟨running, ?_⟩, ?_⟩
    · rw [takeSection_empty prio hcurr hempty]
    · rw [takeSection_empty prio hcurr hempty, hresults]
  | false =>
    refine ⟨.get c, _, rfl, ⟨running, ?_⟩, ?_⟩
    · rw [getProc_eq_takeSection prio hempty]
    · rw [getProc_eq_takeSection prio hempty, hresults]

/-- A section that takes effect is a whole call, and the others are none. -/
theorem sameAnswers_step {t : Calls C P} {a : Section C P} {s' : Sections C P}
    (h : SchedInv prio s.sched) (hsame : SameAnswers s t) (hstep : SectionStep prio s a s') :
    SameAnswers s' t ∨ ∃ b t', callStep prio t b = some t' ∧ SameAnswers s' t' := by
  cases hstep with
  | none c hempty =>
    obtain ⟨⟨running, hsched⟩, hresults⟩ := hsame
    have hempty' : queueEmpty t.sched = true := by
      rw [hsched, queueEmpty_running] at hempty
      exact hempty
    refine Or.inr ⟨.get c, _, rfl, ⟨running, ?_⟩, ?_⟩
    · rw [getProc, getMlqProc, if_pos hempty']
      exact hsched
    · rw [getProc, getMlqProc, if_pos hempty', hresults]
  | some c hempty => exact Or.inl hsame
  | take c => exact Or.inr (sameAnswers_take h hsame c _)
  | list c p =>
    obtain ⟨⟨running, hsched⟩, hresults⟩ := hsame
    exact Or.inl ⟨⟨enqueue s.sched.runningList p, by rw [listSection, hsched]⟩, hresults⟩
  | ready c p =>
    obtain ⟨⟨running, hsched⟩, hresults⟩ := hsame
    refine Or.inr ⟨.put p, _, rfl, ⟨running, ?_⟩, hresults⟩
    simp only [hsched]
    rfl

/-- Every interleaving of the sections of any number of callers has the answers and
the queues of whole calls, one after the other. -/
theorem sections_are_calls (h : Reachable (sectionSystem prio) (fun _ _ => True) s) :
    ∃ t, Reachable (System.ofStep Calls.start (callStep prio)) (fun _ _ => True) t ∧
      SameAnswers s t := by
  induction h with
  | init h0 =>
    obtain rfl := h0
    exact ⟨.start, .init rfl, ⟨initScheduler.runningList, rfl⟩, rfl⟩
  | step hs _ hnext ih =>
    obtain ⟨t, ht, hsame⟩ := ih
    cases sameAnswers_step (schedInv_sections hs) hsame (sectionStep_step hnext) with
    | inl hsame' => exact ⟨t, ht, hsame'⟩
    | inr hcall =>
      obtain ⟨b, t', hb, hsame'⟩ := hcall
      exact ⟨t', .step ht trivial hb, hsame'⟩

/-- Two callers find the one process waiting; the second to look again misses it. -/
theorem sections_are_calls_miss :
    ∃ s : Sections Bool Unit, s.results = [(true, none), (false, some ())] ∧
      ∃ t, Reachable (System.ofStep Calls.start (callStep fun _ => 3)) (fun _ _ => True) t ∧
        SameAnswers s t := by
  obtain ⟨s, hs, hp⟩ := exists_reachable_of_runAll (sectionStep (C := Bool) fun _ : Unit => 3)
    (fun _ _ => True) .start
    [.list false (), .ready false, .check false, .check true, .take false, .take true]
    (fun s => decide (s.results = [(true, none), (false, some ())])) (by decide +kernel)
  exact ⟨s, of_decide_eq_true hp, sections_are_calls hs⟩

/-! ### Waiting -/

/-- The searches in a list of sections. -/
def takes : List (Section C P) → ℕ
  | [] => 0
  | .take _ :: rest => takes rest + 1
  | _ :: rest => takes rest

omit [DecidableEq C] in
theorem results_section [DecidableEq C] {a : Section C P} (hstep : SectionStep prio s a t) :
    ∃ new, t.results = new ++ s.results := by
  cases hstep with
  | none c hempty => exact ⟨[(c, none)], rfl⟩
  | some c hempty => exact ⟨[], rfl⟩
  | take c => exact ⟨[(c, (takeSection prio s.sched).1)], rfl⟩
  | list c p => exact ⟨[], rfl⟩
  | ready c p => exact ⟨[], rfl⟩

theorem results_run {labels : List (Section C P)} (h : Run (sectionSystem prio) s labels t) :
    ∃ new, t.results = new ++ s.results := by
  induction h with
  | nil s => exact ⟨[], rfl⟩
  | cons hnext _ ih =>
    obtain ⟨first, hfirst⟩ := results_section (sectionStep_step hnext)
    obtain ⟨rest, hrest⟩ := ih
    exact ⟨rest ++ first, by rw [hrest, hfirst, List.append_assoc]⟩

omit [DecidableEq C] in
theorem queueEmpty_of_waits {q i : ℕ} {p : P} {sched : SchedState P} (hq : q < maxPrio)
    (hi : (level sched q)[i]? = some p) : queueEmpty sched = false := by
  rw [Bool.eq_false_iff]
  intro hempty
  rw [(queueEmpty_iff sched).mp hempty q hq] at hi
  simp at hi

/-- A search answers the process at the head of level `q`, or brings `q` closer. -/
theorem waits_take {q i : ℕ} {p : P} {sched : SchedState P} (h : SchedInv prio sched)
    (hq : q < maxPrio) (hi : (level sched q)[i]? = some p) :
    i = 0 ∧ (takeSection prio sched).1 = some p ∨
    (∃ k, i = k + 1 ∧ (level (takeSection prio sched).2 q)[k]? = some p) ∨
    (level (takeSection prio sched).2 q)[i]? = some p ∧
      wait (takeSection prio sched).2 q < wait sched q := by
  have hne : level sched q ≠ [] := by
    intro hnil
    simp [hnil] at hi
  have hstep := getProc_step prio sched h
  rw [getProc_eq_takeSection prio (queueEmpty_of_waits hq hi)] at hstep
  cases hstep.serves_or_waits h hq hne with
  | inl hserved =>
    obtain ⟨x, rest, hhead, hr, hrest⟩ := hserved
    rw [hhead] at hi
    cases i with
    | zero =>
      obtain rfl := Option.some.inj hi
      exact Or.inl ⟨rfl, hr⟩
    | succ k =>
      rw [List.getElem?_cons_succ] at hi
      exact Or.inr (Or.inl ⟨k, rfl, by rw [hrest, hi]⟩)
  | inr hwaits => exact Or.inr (Or.inr ⟨by rw [hwaits.1, hi], hwaits.2⟩)

theorem getElem?_level_enqueueLevel {sched : SchedState P} {x p : P} {q i : ℕ}
    (hi : (level sched q)[i]? = some p) : (level (enqueueLevel prio sched x) q)[i]? = some p :=
  getElem?_level_putProc hi

theorem answered_within {q : ℕ} (hq : q < maxPrio) (p : P) {labels : List (Section C P)}
    (h : Run (sectionSystem prio) s labels t) {i : ℕ} (hinv : SchedInv prio s.sched)
    (hi : (level s.sched q)[i]? = some p)
    (hmany : i * (otherQuota q + 1) + wait s.sched q + 1 ≤ takes labels) :
    ∃ new, t.results = new ++ s.results ∧ ∃ c, (c, some p) ∈ new := by
  induction h generalizing i with
  | nil s => simp [takes] at hmany
  | @cons s m t a rest hnext hrun ih =>
    have hstep := sectionStep_step hnext
    have hinv' := schedInv_section hinv hstep
    cases hstep with
    | none c hempty => simp [queueEmpty_of_waits hq hi] at hempty
    | some c hempty => exact ih hinv' hi hmany
    | list c x => exact ih hinv' hi hmany
    | ready c x => exact ih hinv' (getElem?_level_enqueueLevel hi) hmany
    | take c =>
      rw [takes] at hmany
      have hle := wait_le_otherQuota hinv' q
      rcases waits_take hinv hq hi with ⟨-, hans⟩ | ⟨k, rfl, hk⟩ | ⟨hsame, hlt⟩
      · obtain ⟨new, hnew⟩ := results_run hrun
        refine ⟨new ++ [(c, some p)], ?_, c, by simp⟩
        rw [hnew, hans, List.append_assoc]
        rfl
      · have hbudget : (k + 1) * (otherQuota q + 1) = k * (otherQuota q + 1) + otherQuota q + 1 := by
          ring
        obtain ⟨new, hnew, e, he⟩ := ih hinv' hk (by dsimp only at hle ⊢; omega)
        exact ⟨new ++ [(c, (takeSection prio s.sched).1)], by rw [hnew]; simp, e,
          List.mem_append_left _ he⟩
      · obtain ⟨new, hnew, e, he⟩ := ih hinv' hsame (by dsimp only; omega)
        exact ⟨new ++ [(c, (takeSection prio s.sched).1)], by rw [hnew]; simp, e,
          List.mem_append_left _ he⟩

/-- No starvation between the sections: once a process is at index `i` of level `q`,
one of the next `(i + 1) * (S + 1)` searches answers it, whatever the other sections
do in between. -/
theorem sections_bounded_waiting (h : Reachable (sectionSystem prio) (fun _ _ => True) s)
    {q i : ℕ} {p : P} (hq : q < maxPrio) (hi : (level s.sched q)[i]? = some p)
    {labels : List (Section C P)} (hrun : Run (sectionSystem prio) s labels t)
    (hmany : (i + 1) * (otherQuota q + 1) ≤ takes labels) :
    ∃ new, t.results = new ++ s.results ∧ ∃ c, (c, some p) ∈ new := by
  have hinv := schedInv_sections h
  have hle := wait_le_otherQuota hinv q
  have hbudget : (i + 1) * (otherQuota q + 1) = i * (otherQuota q + 1) + otherQuota q + 1 := by
    ring
  exact answered_within hq p hrun hinv hi (by omega)

end Runs

/-- The caller takes the process and puts it back. -/
def takeAndPut : List (Section Unit Unit) := [.check (), .take (), .list () (), .ready ()]

theorem level_enqueueLevel (prio : P → ℕ) (s : SchedState P) (p : P) :
    level (enqueueLevel prio s p) (prio p) = levelPush (level s (prio p)) p := by
  have h := congrFun (level_putProc prio s p) (prio p)
  rw [Function.update_self] at h
  exact h

theorem queueEmpty_enqueueLevel {prio : P → ℕ} (s : SchedState P) {p : P} (hp : prio p < maxPrio) :
    queueEmpty (enqueueLevel prio s p) = false := by
  rw [Bool.eq_false_iff]
  intro hempty
  have hnil := (queueEmpty_iff _).mp hempty (prio p) hp
  rw [level_enqueueLevel, levelPush] at hnil
  split_ifs at hnil with hfull
  · rw [hnil] at hfull
    simp at hfull
  · simp at hnil

theorem run_takeAndPut {s : Sections Unit Unit} (hplace : s.place () = .out)
    (hwaits : queueEmpty s.sched = false) : ∃ t, Run (sectionSystem fun _ => 3) s takeAndPut t ∧
      t.place () = .out ∧ queueEmpty t.sched = false := by
  have hcheck : sectionStep (fun _ => 3) s (.check ()) =
      some { s with place := Function.update s.place () .taking } := by
    rw [sectionStep, hplace, hwaits]
    rfl
  exact ⟨_, .cons hcheck (.cons (by rfl) (.cons (by rfl) (.cons (by rfl) (.nil _)))), rfl,
    @queueEmpty_enqueueLevel Unit (fun _ => 3) _ () (by decide)⟩

theorem run_takeAndPut_many (n : ℕ) {s : Sections Unit Unit} (hplace : s.place () = .out)
    (hwaits : queueEmpty s.sched = false) :
    ∃ labels t, Run (sectionSystem fun _ => 3) s labels t ∧ takes labels = n := by
  induction n generalizing s with
  | zero => exact ⟨[], s, .nil s, rfl⟩
  | succ n ih =>
    obtain ⟨m, hrun, hplace', hwaits'⟩ := run_takeAndPut hplace hwaits
    obtain ⟨labels, t, hrest, htakes⟩ := ih hplace' hwaits'
    refine ⟨takeAndPut ++ labels, t, hrun.append hrest, ?_⟩
    simp only [takeAndPut, List.cons_append, List.nil_append, takes, htakes]

theorem sections_bounded_waiting_one :
    ∃ s t : Sections Unit Unit, level s.sched 3 = [()] ∧
      ∃ new, t.results = new ++ s.results ∧ ∃ c, (c, some ()) ∈ new := by
  obtain ⟨s, hs, hp⟩ := exists_reachable_of_runAll (sectionStep (C := Unit) fun _ : Unit => 3)
    (fun _ _ => True) .start [.list () (), .ready ()]
    (fun s => decide (level s.sched 3 = [()]) && decide (queueEmpty s.sched = false) &&
      match s.place () with
      | .out => true
      | _ => false) (by decide +kernel)
  simp only [Bool.and_eq_true, decide_eq_true_eq] at hp
  obtain ⟨⟨hlevel, hwaits⟩, hplace⟩ := hp
  have hout : s.place () = .out := by
    cases hat : s.place () with
    | out => rfl
    | taking => simp [hat] at hplace
    | listed p => simp [hat] at hplace
  obtain ⟨labels, t, hrun, htakes⟩ :=
    run_takeAndPut_many ((0 + 1) * (otherQuota 3 + 1)) hout hwaits
  exact ⟨s, t, hlevel, sections_bounded_waiting hs (by decide) (by rw [hlevel]; rfl) hrun htakes.ge⟩

end OsSim.Sched
