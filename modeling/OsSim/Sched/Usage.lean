import OsSim.Sched.Mlq
import OsSim.Base.Count

/-!
# Where the processes are

The scheduler together with its callers. Each process is added once, and a
caller puts back only what it got. `Usage` records, beside the scheduler state,
who holds what, and which processes were handed to `enqueue` while their level
was full: `enqueue` returns without inserting (`queue.c:18-19`) and nobody is
told. `usage_accounts` counts every process in exactly one of these places.
-/

namespace OsSim.Sched
open OsSim.Base

structure Usage (C P : Type) where
  sched : SchedState P
  added : List P
  held : List (C × P)
  dropped : List P

variable {C P : Type} [DecidableEq P]

def Usage.start : Usage C P := ⟨initScheduler, [], [], []⟩

inductive UsageOp (C P : Type) where
  | add (p : P)
  | get (c : C)
  | put (c : C) (p : P)

/-- The processes dropped so far, once `p` is handed to `enqueue`. -/
def Usage.droppedBy (prio : P → ℕ) (u : Usage C P) (p : P) : List P :=
  if (level u.sched (prio p)).length = maxQueueSize then p :: u.dropped else u.dropped

/-- One operation. `add` and `put` are defined only within the discipline. -/
def usageStep [DecidableEq C] (prio : P → ℕ) (u : Usage C P) : UsageOp C P → Option (Usage C P)
  | .add p =>
    if p ∈ u.added then none
    else some
      { sched := addProc prio u.sched p
        added := p :: u.added
        held := u.held
        dropped := u.droppedBy prio p }
  | .get c =>
    let r := getProc prio u.sched
    some { u with sched := r.2, held := r.1.elim u.held fun p => (c, p) :: u.held }
  | .put c p =>
    if (c, p) ∈ u.held then
      some
        { sched := putProc prio u.sched p
          added := u.added
          held := u.held.erase (c, p)
          dropped := u.droppedBy prio p }
    else none

def UsageOk (prio : P → ℕ) : UsageOp C P → Prop
  | .add p => prio p < maxPrio
  | _ => True

instance (prio : P → ℕ) (op : UsageOp C P) : Decidable (UsageOk prio op) := by
  cases op <;> simp only [UsageOk] <;> infer_instance

/-- Reachable from `init_scheduler` within the discipline, with `prio < MAX_PRIO`. -/
def UsageReachable [DecidableEq C] (prio : P → ℕ) (u : Usage C P) : Prop :=
  Reachable (System.ofStep Usage.start (usageStep prio)) (fun _ op => UsageOk prio op) u

/-- The positions of `p` in the ready queues. -/
def waiting (s : SchedState P) (p : P) : ℕ := ∑ l ∈ Finset.range maxPrio, (level s l).count p

/-- The places `p` is in: ready queue positions, callers' hands, drops. -/
def Usage.places (u : Usage C P) (p : P) : ℕ :=
  waiting u.sched p + (u.held.map Prod.snd).count p + u.dropped.count p

structure UsageInv (prio : P → ℕ) (u : Usage C P) : Prop where
  sched : SchedInv prio u.sched
  prio_lt : ∀ p ∈ u.added, prio p < maxPrio
  crowded : ∀ p ∈ u.dropped, maxQueueSize < u.added.countP fun x => prio x = prio p
  places : ∀ p, u.places p = if p ∈ u.added then 1 else 0

theorem waiting_putProc {prio : P → ℕ} {s : SchedState P} {p : P} (hp : prio p < maxPrio) (x : P) :
    waiting (putProc prio s p) x =
      waiting s x + if (level s (prio p)).length = maxQueueSize then 0 else [p].count x := by
  have h := sum_count_update (level s) (levelPush (level s (prio p)) p) hp x
  simp only [waiting, level_putProc]
  by_cases hfull : (level s (prio p)).length = maxQueueSize
  · simp only [levelPush, if_pos hfull] at h ⊢
    omega
  · simp only [levelPush, if_neg hfull, List.count_append] at h ⊢
    omega

theorem GetStep.waiting_some {s t : SchedState P} {p : P} (hc : s.currPrio < maxPrio)
    (h : GetStep s (some p) t) (x : P) : waiting t x + [p].count x = waiting s x := by
  obtain ⟨l, hl, rest, hq, ht, -⟩ := h.takes_one hc
  have hsum := sum_count_update (level s) rest hl x
  rw [waiting, waiting, ht]
  rw [hq, List.count_cons] at hsum
  rw [List.count_singleton]
  omega

theorem GetStep.waiting_none {prio : P → ℕ} {s t : SchedState P} (hs : SchedInv prio s)
    (h : GetStep s none t) (x : P) : waiting t x = waiting s x := by
  rcases h.none_cases hs with ⟨-, ht⟩ | ⟨-, ht⟩
  · rw [ht]
  · rw [waiting, waiting, ht]

theorem Usage.count_droppedBy (prio : P → ℕ) (u : Usage C P) (p x : P) :
    (u.droppedBy prio p).count x =
      u.dropped.count x + if (level u.sched (prio p)).length = maxQueueSize then [p].count x else 0 := by
  rw [Usage.droppedBy]
  split_ifs
  · rw [List.count_cons, List.count_singleton]
  · rfl

theorem count_map_erase [DecidableEq C] {c : C} {p : P} {held : List (C × P)} (h : (c, p) ∈ held) (x : P) :
    ((held.erase (c, p)).map Prod.snd).count x + [p].count x = (held.map Prod.snd).count x := by
  have hperm := ((List.perm_cons_erase h).map Prod.snd).count_eq x
  simp only [List.map_cons, List.count_cons, List.count_nil] at hperm ⊢
  omega

/-- A full level and one more process of its priority, all among `added`. -/
theorem UsageInv.crowded_of_full {prio : P → ℕ} {u : Usage C P} (hu : UsageInv prio u) {p : P}
    (hp : prio p < maxPrio) (hfull : (level u.sched (prio p)).length = maxQueueSize)
    (hnot : p ∉ level u.sched (prio p)) {added : List P} (hmem : p ∈ added)
    (hsub : u.added ⊆ added) : maxQueueSize < added.countP fun x => prio x = prio p := by
  have hcount : ∀ x, (level u.sched (prio p)).count x ≤ u.places x := fun x =>
    (Finset.single_le_sum (f := fun l => (level u.sched l).count x) (fun _ _ => Nat.zero_le _)
      (Finset.mem_range.mpr hp)).trans ((Nat.le_add_right _ _).trans (Nat.le_add_right _ _))
  have hnodup : (p :: level u.sched (prio p)).Nodup := by
    refine List.nodup_cons.mpr ⟨hnot, List.nodup_iff_count_le_one.mpr fun x => ?_⟩
    have hx := hu.places x
    have hc := hcount x
    split_ifs at hx <;> omega
  have hsubset : p :: level u.sched (prio p) ⊆ added := by
    refine List.cons_subset.mpr ⟨hmem, fun x hx => hsub ?_⟩
    by_contra hno
    have hc := hcount x
    rw [hu.places x, if_neg hno] at hc
    have hpos := List.count_pos_iff.mpr hx
    omega
  have hle := (hnodup.subperm hsubset).countP_le (fun x => decide (prio x = prio p))
  have hall : (p :: level u.sched (prio p)).countP (fun x => decide (prio x = prio p)) =
      (p :: level u.sched (prio p)).length := by
    refine List.countP_eq_length.mpr fun x hx => decide_eq_true ?_
    rcases List.mem_cons.mp hx with rfl | hx
    · rfl
    · exact hu.sched.uniform _ hp x hx
  rw [hall, List.length_cons, hfull] at hle
  exact hle

theorem UsageInv.crowded_droppedBy {prio : P → ℕ} {u : Usage C P} (hu : UsageInv prio u) {p : P}
    (hp : prio p < maxPrio) (hnot : p ∉ level u.sched (prio p)) {added : List P} (hmem : p ∈ added)
    (hperm : List.Sublist u.added added) :
    ∀ x ∈ u.droppedBy prio p, maxQueueSize < added.countP fun y => prio y = prio x := by
  intro x hx
  have hold : ∀ y ∈ u.dropped, maxQueueSize < added.countP fun z => prio z = prio y := fun y hy =>
    (hu.crowded y hy).trans_le (hperm.countP_le ..)
  rw [Usage.droppedBy] at hx
  split_ifs at hx with hfull
  · rcases List.mem_cons.mp hx with rfl | hx
    · exact hu.crowded_of_full hp hfull hnot hmem hperm.subset
    · exact hold x hx
  · exact hold x hx

theorem not_mem_level {s : SchedState P} {p : P} {l : ℕ} (hl : l < maxPrio)
    (h : waiting s p = 0) : p ∉ level s l := by
  intro hmem
  have hpos := count_pos_of_mem_range (level s) hl hmem
  rw [waiting] at h
  omega

theorem usageInv_add {prio : P → ℕ} {u : Usage C P} (hu : UsageInv prio u) {p : P}
    (hp : prio p < maxPrio) (hnew : p ∉ u.added) :
    UsageInv prio ⟨addProc prio u.sched p, p :: u.added, u.held, u.droppedBy prio p⟩ where
  sched := schedInv_putProc hu.sched p
  prio_lt x hx := by
    rcases List.mem_cons.mp hx with rfl | hx
    · exact hp
    · exact hu.prio_lt x hx
  crowded := by
    have hpl := hu.places p
    rw [if_neg hnew, Usage.places] at hpl
    exact hu.crowded_droppedBy hp (not_mem_level hp (by omega)) (List.mem_cons_self ..)
      (List.sublist_cons_self ..)
  places x := by
    have hx := hu.places x
    simp only [Usage.places, addProc_eq_putProc, waiting_putProc hp, Usage.count_droppedBy] at hx ⊢
    rw [List.count_singleton]
    by_cases hxp : p = x
    · subst hxp
      simp only [hnew, if_false, beq_self_eq_true, if_true, List.mem_cons_self] at hx ⊢
      split_ifs <;> omega
    · have hmem : x ∈ p :: u.added ↔ x ∈ u.added := by simp [Ne.symm hxp]
      simp only [hmem, beq_eq_false_iff_ne.mpr hxp, Bool.false_eq_true, if_false, ite_self] at hx ⊢
      omega

theorem usageInv_get {prio : P → ℕ} {u : Usage C P} (hu : UsageInv prio u) (c : C) :
    UsageInv prio { u with
      sched := (getProc prio u.sched).2
      held := (getProc prio u.sched).1.elim u.held fun p => (c, p) :: u.held } where
  sched := (getProc_step prio u.sched hu.sched).inv hu.sched
  prio_lt := hu.prio_lt
  crowded := hu.crowded
  places x := by
    have hx := hu.places x
    have hstep := getProc_step prio u.sched hu.sched
    simp only [Usage.places] at hx ⊢
    rcases hr : (getProc prio u.sched).1 with - | p
    · rw [hr] at hstep
      rw [hstep.waiting_none hu.sched, Option.elim_none]
      exact hx
    · rw [hr] at hstep
      have hw := hstep.waiting_some hu.sched.curr_lt x
      simp only [Option.elim_some, List.map_cons, List.count_cons, List.count_nil] at hw ⊢
      omega

theorem UsageInv.added_of_held {prio : P → ℕ} {u : Usage C P} (hu : UsageInv prio u) {c : C}
    {p : P} (h : (c, p) ∈ u.held) : p ∈ u.added := by
  have hp := hu.places p
  have hpos : 0 < (u.held.map Prod.snd).count p :=
    List.count_pos_iff.mpr (List.mem_map.mpr ⟨_, h, rfl⟩)
  by_contra hno
  rw [if_neg hno, Usage.places] at hp
  omega

theorem usageInv_put [DecidableEq C] {prio : P → ℕ} {u : Usage C P} (hu : UsageInv prio u) {c : C} {p : P}
    (hheld : (c, p) ∈ u.held) :
    UsageInv prio ⟨putProc prio u.sched p, u.added, u.held.erase (c, p), u.droppedBy prio p⟩ where
  sched := schedInv_putProc hu.sched p
  prio_lt := hu.prio_lt
  crowded := by
    have hadded := hu.added_of_held hheld
    have hp := hu.prio_lt p hadded
    have hpl := hu.places p
    have hpos : 0 < (u.held.map Prod.snd).count p :=
      List.count_pos_iff.mpr (List.mem_map.mpr ⟨_, hheld, rfl⟩)
    rw [if_pos hadded, Usage.places] at hpl
    exact hu.crowded_droppedBy hp (not_mem_level hp (by omega)) hadded (List.Sublist.refl _)
  places x := by
    have hx := hu.places x
    have hp := hu.prio_lt p (hu.added_of_held hheld)
    have he := count_map_erase hheld x
    simp only [Usage.places, waiting_putProc hp, Usage.count_droppedBy] at hx ⊢
    split_ifs at hx ⊢ <;> omega

theorem UsageReachable.inv [DecidableEq C] {prio : P → ℕ} {u : Usage C P} (h : UsageReachable prio u) :
    UsageInv prio u := by
  refine Reachable.invariant (UsageInv prio) ?_ ?_ h
  · intro u0 h0
    obtain rfl : u0 = Usage.start := h0
    exact ⟨schedInv_init prio, by simp [Usage.start], by simp [Usage.start],
      by simp [Usage.start, Usage.places, waiting, level, initScheduler, QueueT.toList_new]⟩
  · intro u0 op u1 hu hok hnext
    change usageStep prio u0 op = some u1 at hnext
    cases op with
    | add p =>
      simp only [usageStep] at hnext
      split_ifs at hnext with hnew
      exact Option.some.inj hnext ▸ usageInv_add hu hok hnew
    | get c => exact Option.some.inj hnext ▸ usageInv_get hu c
    | put c p =>
      simp only [usageStep] at hnext
      split_ifs at hnext with hheld
      exact Option.some.inj hnext ▸ usageInv_put hu hheld

theorem UsageInv.waits_at_prio {prio : P → ℕ} {u : Usage C P} (hu : UsageInv prio u) {p : P}
    {l : ℕ} (hl : l < maxPrio) (h : p ∈ level u.sched l) : l = prio p :=
  (hu.sched.uniform l hl p h).symm

/-- Every process added is at exactly one position of the ready queue of its
priority, or in the hands of exactly one caller, or was dropped by `enqueue`;
the last only when more than `MAX_QUEUE_SIZE` processes of its priority were
added. -/
theorem usage_accounts [DecidableEq C] (prio : P → ℕ) {u : Usage C P} (h : UsageReachable prio u)
    {p : P} (hp : p ∈ u.added) :
    waiting u.sched p + (u.held.map Prod.snd).count p + u.dropped.count p = 1 ∧
      (∀ l < maxPrio, p ∈ level u.sched l → l = prio p) ∧
      (p ∈ u.dropped → maxQueueSize < u.added.countP fun x => prio x = prio p) := by
  have hplaces := h.inv.places p
  rw [if_pos hp] at hplaces
  exact ⟨hplaces, fun l hl => h.inv.waits_at_prio hl, h.inv.crowded p⟩

/-- Eleven processes of priority 0, of which one is held and one was dropped. -/
theorem usage_accounts_crowded :
    ∃ u : Usage Bool ℕ, u.added.length = 11 ∧ u.held = [(true, 0)] ∧ u.dropped = [10] ∧
      ∀ p ∈ u.added, waiting u.sched p + (u.held.map Prod.snd).count p + u.dropped.count p = 1 ∧
        (∀ l < maxPrio, p ∈ level u.sched l → l = 0) ∧
        (p ∈ u.dropped → maxQueueSize < u.added.length) := by
  obtain ⟨u, hu, hp⟩ := exists_reachable_of_runAll (usageStep (C := Bool) fun _ : ℕ => 0)
    (fun _ op => UsageOk (fun _ => 0) op) .start ((List.range 11).map .add ++ [.get true])
    (fun u => decide (u.added.length = 11 ∧ u.held = [(true, 0)] ∧ u.dropped = [10]))
    (by decide +kernel)
  obtain ⟨hadded, hheld, hdropped⟩ := of_decide_eq_true hp
  refine ⟨u, hadded, hheld, hdropped, fun p hp => ?_⟩
  simpa using usage_accounts (fun _ => 0) hu hp

set_option maxRecDepth 4096 in
/-- Eleven processes of priority 0 are added; the last one is nowhere. -/
theorem eleventh_process_is_lost :
    ∃ u : Usage Unit ℕ, UsageReachable (fun _ => 0) u ∧ 10 ∈ u.added ∧
      (∀ l < maxPrio, 10 ∉ level u.sched l) ∧ u.held = [] := by
  have hrun := reachable_runAll (usageStep (C := Unit) fun _ : ℕ => 0)
    (fun _ op => UsageOk (fun _ => 0) op) Usage.start ((List.range 11).map .add)
    (.init rfl) rfl
  exact ⟨_, hrun, by decide, by decide, rfl⟩

end OsSim.Sched
