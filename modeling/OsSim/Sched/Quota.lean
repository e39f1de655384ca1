import OsSim.Sched.Waiting

/-!
# The quota of a level

A level keeps the CPU for `slot[curr_prio]` calls of `get_proc` before the search
goes on. `budget p` is how many more processes of level `p` can leave in a row
while another level waits: the slot counter if `p` is the current level, the
whole quota otherwise. Every such `get_proc` spends one of it, and neither
`put_proc` nor `add_proc` gives any back.
-/

namespace OsSim.Sched
open OsSim.Base

variable {P : Type}

/-- Operations among which every `get_proc` finds a process waiting at some other
level and returns one of level `p`. -/
def InARow (prio : P → ℕ) (p : ℕ) : SchedState P → List (SchedOp P) → Prop
  | _, [] => True
  | s, .get :: ops => (∃ i < maxPrio, i ≠ p ∧ level s i ≠ []) ∧
      (∃ x, (getProc prio s).1 = some x ∧ prio x = p) ∧ InARow prio p (getProc prio s).2 ops
  | s, .put x :: ops => prio x < maxPrio ∧ InARow prio p (putProc prio s x) ops
  | s, .add x :: ops => prio x < maxPrio ∧ InARow prio p (addProc prio s x) ops

def budget (s : SchedState P) (p : ℕ) : ℤ := if s.currPrio = p then s.currSlot else maxPrio - p

theorem budget_le {prio : P → ℕ} {s : SchedState P} (hs : SchedInv prio s) (p : ℕ) :
    budget s p ≤ maxPrio - p := by
  have hslot := hs.slot_le
  unfold budget
  split_ifs with hp
  · subst hp
    exact hslot
  · exact le_rfl

/-- A `get_proc` that returns a process of level `p` beside another waiting level
spends one of the budget. -/
theorem budget_get {prio : P → ℕ} {s t : SchedState P} {p : ℕ} {x : P} (hs : SchedInv prio s)
    (hother : ∃ i < maxPrio, i ≠ p ∧ level s i ≠ []) (hx : prio x = p)
    (h : GetStep s (some x) t) : budget t p + 1 ≤ budget s p := by
  obtain ⟨i, hi, hip, hwait⟩ := hother
  cases h with
  | current hslot hq hserved =>
    have hlevel : s.currPrio = p :=
      (hs.uniform _ hs.curr_lt x (by rw [hq]; exact List.mem_cons_self ..)).symm.trans hx
    unfold budget
    rw [if_pos hlevel, if_pos (hserved.prio_eq.trans hlevel), hserved.slot_eq]
    omega
  | @search k _ rest _ hk hkm _ _ hq hserved =>
    -- the search never comes back to the current level, so `p` was not it
    have hl : (s.currPrio + k) % maxPrio < maxPrio := Nat.mod_lt _ (by decide)
    have hlevel : (s.currPrio + k) % maxPrio = p :=
      (hs.uniform _ hl x (by rw [hq]; exact List.mem_cons_self ..)).symm.trans hx
    have hne : s.currPrio ≠ p := by
      have hc := hs.curr_lt
      simp only [maxPrio] at hkm hc hlevel
      omega
    have hquota := hs.slot_eq _ hl
    unfold budget
    rw [if_neg hne, if_pos (hserved.prio_eq.trans hlevel), hserved.slot_eq, hquota, hlevel]
    rw [hlevel] at hl
    omega
  | fallback hslot hcurr hempty hq hserved =>
    have hlevel : 0 = p :=
      (hs.uniform 0 (by decide) x (by rw [hq]; exact List.mem_cons_self ..)).symm.trans hx
    exact absurd (hempty i hi (by omega)) hwait

theorem budget_nonneg {prio : P → ℕ} {s : SchedState P} (hs : SchedInv prio s) {p : ℕ}
    (hp : p < maxPrio) : 0 ≤ budget s p := by
  have hslot := hs.slot_nonneg
  unfold budget
  split_ifs <;> omega

/-- By induction on the operations, the budget bounds the `get_proc`s. -/
theorem gets_le_budget {prio : P → ℕ} {p : ℕ} (hp : p < maxPrio) (ops : List (SchedOp P))
    {s : SchedState P} (hs : SchedInv prio s) (h : InARow prio p s ops) :
    (gets ops : ℤ) ≤ budget s p := by
  induction ops generalizing s with
  | nil => exact budget_nonneg hs hp
  | cons op ops ih =>
    cases op with
    | add x => exact ih (s := addProc prio s x) (schedInv_putProc hs x) h.2
    | put x => exact ih (s := putProc prio s x) (schedInv_putProc hs x) h.2
    | get =>
      obtain ⟨hother, ⟨x, hget, hx⟩, hrest⟩ := h
      have hstep := getProc_step prio s hs
      have hafter := ih (hstep.inv hs) hrest
      rw [hget] at hstep
      have hspent := budget_get hs hother hx hstep
      rw [gets]
      push_cast
      omega

/-- The representation invariant of the scheduler, and the quota it gives. -/
theorem schedReachable_quota (prio : P → ℕ) {s : SchedState P} (h : SchedReachable prio s) :
    s.currPrio < maxPrio ∧ 0 ≤ s.currSlot ∧ s.currSlot ≤ s.slot s.currPrio ∧
      s.slot s.currPrio = maxPrio - s.currPrio ∧
      (∀ i < maxPrio, (s.mlqReadyQueue i).size ≤ maxQueueSize ∧ ∀ x ∈ level s i, prio x = i) ∧
      (∀ i < maxPrio, s.slot i = (initScheduler : SchedState P).slot i) ∧
      ∀ p < maxPrio, ∀ ops, InARow prio p s ops → gets ops ≤ maxPrio - p := by
  have hs := h.inv
  have hquota := hs.slot_eq _ hs.curr_lt
  refine ⟨hs.curr_lt, hs.slot_nonneg, hquota ▸ hs.slot_le, hquota,
    fun i hi => ⟨(s.mlqReadyQueue i).size_le, hs.uniform i hi⟩, fun i hi => ?_,
    fun p hp ops hrow => ?_⟩
  · rw [hs.slot_eq i hi]
    exact (if_pos hi).symm
  · have hgets := gets_le_budget hp ops hs hrow
    have hle := budget_le hs p
    omega

/-- Level 3 is served once while a process of level 139 waits. -/
theorem schedReachable_quota_two :
    ∃ s : SchedState Bool, InARow (fun b => if b then 139 else 3) 3 s [.get] ∧
      gets [(.get : SchedOp Bool)] ≤ maxPrio - 3 := by
  have hlt : ∀ b : Bool, (if b then 139 else 3) < maxPrio := by decide
  have hr : SchedReachable (fun b => if b then 139 else 3)
      (addProc (fun b => if b then 139 else 3)
        (addProc (fun b => if b then 139 else 3) initScheduler true) false) :=
    .step (a := .add false) (.step (a := .add true) (.init rfl) (hlt true) rfl) (hlt false) rfl
  have hrow : InARow (fun b => if b then 139 else 3) 3
      (addProc (fun b => if b then 139 else 3)
        (addProc (fun b => if b then 139 else 3) initScheduler true) false) [.get] :=
    ⟨⟨139, by decide, by decide, by decide +kernel⟩, ⟨false, by decide +kernel, by decide⟩, trivial⟩
  obtain ⟨-, -, -, -, -, -, hquota⟩ := schedReachable_quota _ hr
  exact ⟨_, hrow, hquota 3 (by decide) _ hrow⟩

end OsSim.Sched
