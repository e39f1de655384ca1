import OsSim.Sched.Queue

/-!
# The multi-level queue scheduler (sched.c)

`MAX_PRIO` ready queues, one per priority, served round robin: the current
level keeps the CPU for `slot[curr_prio]` calls, then the search goes on with
the next non-empty level. The state is the statics of `sched.c`; each of
`get_proc`, `put_proc` and `add_proc` is one step on it. `getMlqProc_step` is
the inversion lemma: everything one `get_proc` can do, in terms of the lists
in the queues.
-/

namespace OsSim.Sched
open OsSim.Base

/-- `MAX_PRIO` (`os-cfg.h:5`). -/
abbrev maxPrio : ℕ := 140

/-- The statics of `sched.c:13-20`. -/
structure SchedState (P : Type) where
  mlqReadyQueue : ℕ → QueueT P
  slot : ℕ → ℤ
  currPrio : ℕ
  currSlot : ℤ
  runningList : QueueT P

variable {P : Type}

/-- `init_scheduler` (`sched.c:45-63`). -/
def initScheduler : SchedState P where
  mlqReadyQueue _ := QueueT.new
  slot i := if i < maxPrio then maxPrio - i else 0
  currPrio := 0
  currSlot := maxPrio
  runningList := QueueT.new

/-- `queue_empty` (`sched.c:26-43`). -/
def queueEmpty (s : SchedState P) : Bool :=
  (List.range maxPrio).all fun i => empty (s.mlqReadyQueue i)

/-- Take a process from level `l`, leaving `curr_prio = l` and `curr_slot = c`. -/
def takeFrom (prio : P → ℕ) (s : SchedState P) (l : ℕ) (c : ℤ) : Option P × SchedState P :=
  let r := dequeue prio (s.mlqReadyQueue l)
  (r.1, { s with
    mlqReadyQueue := Function.update s.mlqReadyQueue l r.2
    currPrio := l
    currSlot := c })

/-- The search loop of `get_mlq_proc` (`sched.c:93-104`): the offsets are
`1 .. MAX_PRIO - 1`, so the current level itself is not visited. -/
def searchLevel (s : SchedState P) : Option ℕ :=
  ((List.range' 1 (maxPrio - 1)).map fun offset => (s.currPrio + offset) % maxPrio).find?
    fun p => !empty (s.mlqReadyQueue p)

/-- `get_mlq_proc` (`sched.c:73-111`). -/
def getMlqProc (prio : P → ℕ) (s : SchedState P) : Option P × SchedState P :=
  if queueEmpty s then (none, s)
  else if 0 < s.currSlot ∧ empty (s.mlqReadyQueue s.currPrio) = false then
    takeFrom prio s s.currPrio (s.currSlot - 1)
  else
    match searchLevel s with
    | some p => takeFrom prio s p (s.slot p - 1)
    | none => takeFrom prio s 0 (s.slot 0 - 1)

/-- `get_proc` (`sched.c:127-130`). -/
def getProc (prio : P → ℕ) (s : SchedState P) : Option P × SchedState P := getMlqProc prio s

/-- The common body of `put_mlq_proc` and `add_mlq_proc`. -/
def enqueueLevel (prio : P → ℕ) (s : SchedState P) (p : P) : SchedState P :=
  { s with mlqReadyQueue :=
      Function.update s.mlqReadyQueue (prio p) (enqueue (s.mlqReadyQueue (prio p)) p) }

/-- `put_mlq_proc` (`sched.c:113-118`). -/
def putMlqProc (prio : P → ℕ) (s : SchedState P) (p : P) : SchedState P := enqueueLevel prio s p

/-- `add_mlq_proc` (`sched.c:120-125`). -/
def addMlqProc (prio : P → ℕ) (s : SchedState P) (p : P) : SchedState P := enqueueLevel prio s p

/-- `put_proc` (`sched.c:132-141`). -/
def putProc (prio : P → ℕ) (s : SchedState P) (p : P) : SchedState P :=
  putMlqProc prio { s with runningList := enqueue s.runningList p } p

/-- `add_proc` (`sched.c:143-152`). -/
def addProc (prio : P → ℕ) (s : SchedState P) (p : P) : SchedState P :=
  addMlqProc prio { s with runningList := enqueue s.runningList p } p

/-! ### Levels -/

/-- The processes waiting at a level, oldest first. -/
def level (s : SchedState P) (i : ℕ) : List P := (s.mlqReadyQueue i).toList

theorem queueEmpty_iff (s : SchedState P) :
    queueEmpty s = true ↔ ∀ i < maxPrio, level s i = [] := by
  simp only [queueEmpty, List.all_eq_true, List.mem_range, empty_iff, level]

theorem level_takeFrom (prio : P → ℕ) (s : SchedState P) (l : ℕ) (c : ℤ) :
    level (takeFrom prio s l c).2 =
      Function.update (level s) l (dequeue prio (s.mlqReadyQueue l)).2.toList := by
  funext i
  simp only [level, takeFrom, Function.update_apply]
  split_ifs <;> rfl

/-- What a level looks like after `p` was handed to `enqueue`. -/
def levelPush (q : List P) (p : P) : List P := if q.length = maxQueueSize then q else q ++ [p]

theorem level_putProc (prio : P → ℕ) (s : SchedState P) (p : P) :
    level (putProc prio s p) =
      Function.update (level s) (prio p) (levelPush (level s (prio p)) p) := by
  funext i
  simp only [level, putProc, putMlqProc, enqueueLevel, Function.update_apply, levelPush]
  split_ifs with hi <;> simp_all [toList_enqueue]

theorem addProc_eq_putProc (prio : P → ℕ) (s : SchedState P) (p : P) :
    addProc prio s p = putProc prio s p := rfl

/-! ### The operations as a transition system -/

inductive SchedOp (P : Type) where
  | add (p : P)
  | put (p : P)
  | get

/-- The result of the call (`none` for the `void` ones) and the next state. -/
def schedStep (prio : P → ℕ) (s : SchedState P) : SchedOp P → Option P × SchedState P
  | .add p => (none, addProc prio s p)
  | .put p => (none, putProc prio s p)
  | .get => getProc prio s

/-- `prio < MAX_PRIO` for the process handed in. -/
def PrioOk (prio : P → ℕ) : SchedOp P → Prop
  | .add p => prio p < maxPrio
  | .put p => prio p < maxPrio
  | .get => True

def schedSystem (prio : P → ℕ) : System (SchedState P) (SchedOp P) where
  init s := s = initScheduler
  next s op t := t = (schedStep prio s op).2

/-- Reachable from `init_scheduler` by the three operations with `prio < MAX_PRIO`. -/
def SchedReachable (prio : P → ℕ) (s : SchedState P) : Prop :=
  Reachable (schedSystem prio) (fun _ op => PrioOk prio op) s

/-- The representation invariant. -/
structure SchedInv (prio : P → ℕ) (s : SchedState P) : Prop where
  uniform : ∀ i < maxPrio, ∀ p ∈ level s i, prio p = i
  curr_lt : s.currPrio < maxPrio
  slot_nonneg : 0 ≤ s.currSlot
  slot_le : s.currSlot ≤ maxPrio - s.currPrio
  slot_eq : ∀ i < maxPrio, s.slot i = maxPrio - i

/-- The state after a process left level `l`, `rest` staying behind. -/
structure Served (s : SchedState P) (l : ℕ) (rest : List P) (c : ℤ) (t : SchedState P) : Prop where
  level_eq : level t = Function.update (level s) l rest
  prio_eq : t.currPrio = l
  slot_eq : t.currSlot = c
  quota_eq : t.slot = s.slot
  running_eq : t.runningList = s.runningList

/-- Everything `get_proc` can do. In the last two cases the search found nothing
although the current level is not empty, and the code falls back to level 0. -/
inductive GetStep (s : SchedState P) : Option P → SchedState P → Prop where
  | idle : (∀ i < maxPrio, level s i = []) → GetStep s none s
  | current {p rest t} : 0 < s.currSlot → level s s.currPrio = p :: rest →
      Served s s.currPrio rest (s.currSlot - 1) t → GetStep s (some p) t
  | search {k p rest t} : 0 < k → k < maxPrio → (s.currSlot ≤ 0 ∨ level s s.currPrio = []) →
      (∀ j, 0 < j → j < k → level s ((s.currPrio + j) % maxPrio) = []) →
      level s ((s.currPrio + k) % maxPrio) = p :: rest →
      Served s ((s.currPrio + k) % maxPrio) rest
        (s.slot ((s.currPrio + k) % maxPrio) - 1) t → GetStep s (some p) t
  | fallback {p rest t} : s.currSlot ≤ 0 → s.currPrio = 0 →
      (∀ i < maxPrio, i ≠ s.currPrio → level s i = []) → level s 0 = p :: rest →
      Served s 0 rest (s.slot 0 - 1) t → GetStep s (some p) t
  | lost {t} : s.currSlot ≤ 0 → s.currPrio ≠ 0 → level s s.currPrio ≠ [] →
      (∀ i < maxPrio, i ≠ s.currPrio → level s i = []) →
      Served s 0 [] (s.slot 0 - 1) t → GetStep s none t

theorem takeFrom_served (prio : P → ℕ) (s : SchedState P) (hs : SchedInv prio s) {l : ℕ}
    (hl : l < maxPrio) (c : ℤ) {p : P} {rest : List P} (h : level s l = p :: rest) :
    (takeFrom prio s l c).1 = some p ∧ Served s l rest c (takeFrom prio s l c).2 := by
  obtain ⟨hp, hrest⟩ := dequeue_uniform prio (s.mlqReadyQueue l) l (hs.uniform l hl) h
  exact ⟨hp, by rw [level_takeFrom, hrest], rfl, rfl, rfl, rfl⟩

theorem takeFrom_nil (prio : P → ℕ) (s : SchedState P) {l : ℕ} (c : ℤ) (h : level s l = []) :
    (takeFrom prio s l c).1 = none ∧ Served s l [] c (takeFrom prio s l c).2 := by
  have hd := dequeue_nil prio (s.mlqReadyQueue l) h
  refine ⟨by rw [takeFrom, hd], ?_, rfl, rfl, rfl, rfl⟩
  rw [level_takeFrom, hd]
  exact congrArg _ h

theorem searchLevel_some (s : SchedState P) {l : ℕ} (h : searchLevel s = some l) :
    ∃ k, 0 < k ∧ k < maxPrio ∧ l = (s.currPrio + k) % maxPrio ∧ level s l ≠ [] ∧
      ∀ j, 0 < j → j < k → level s ((s.currPrio + j) % maxPrio) = [] := by
  obtain ⟨hl, i, hi, hil, hbefore⟩ := List.find?_eq_some_iff_getElem.mp h
  simp only [List.length_map, List.length_range'] at hi
  simp only [List.getElem_map, List.getElem_range'] at hil hbefore
  refine ⟨1 + i, by omega, by omega, by rw [← hil]; simp, ?_, fun j hj hjk => ?_⟩
  · simpa [← empty_eq_false_iff, level] using hl
  · have hb := hbefore (j - 1) (by omega)
    have hj1 : 1 + 1 * (j - 1) = j := by omega
    rw [hj1] at hb
    rw [level, ← empty_iff]
    simpa using hb

theorem searchLevel_none (s : SchedState P) (h : searchLevel s = none) (hc : s.currPrio < maxPrio) :
    ∀ i < maxPrio, i ≠ s.currPrio → level s i = [] := by
  intro i hi hne
  have hmem : i ∈ (List.range' 1 (maxPrio - 1)).map fun offset => (s.currPrio + offset) % maxPrio := by
    refine List.mem_map.mpr ⟨(i + maxPrio - s.currPrio) % maxPrio, List.mem_range'_1.mpr ?_, ?_⟩
    all_goals simp only [maxPrio] at hi hc ⊢; omega
  have hall := List.find?_eq_none.mp h i hmem
  rw [level, ← empty_iff]
  simpa using hall

theorem getProc_step (prio : P → ℕ) (s : SchedState P) (hs : SchedInv prio s) :
    GetStep s (getProc prio s).1 (getProc prio s).2 := by
  simp only [getProc, getMlqProc]
  by_cases hempty : queueEmpty s = true
  · rw [if_pos hempty]
    exact .idle ((queueEmpty_iff s).mp hempty)
  rw [if_neg hempty]
  by_cases hcur : 0 < s.currSlot ∧ empty (s.mlqReadyQueue s.currPrio) = false
  · rw [if_pos hcur]
    obtain ⟨p, rest, hq⟩ := List.exists_cons_of_ne_nil ((empty_eq_false_iff _).mp hcur.2)
    obtain ⟨hp, ht⟩ := takeFrom_served prio s hs hs.curr_lt (s.currSlot - 1) hq
    rw [hp]
    exact .current hcur.1 hq ht
  rw [if_neg hcur]
  have hspent : s.currSlot ≤ 0 ∨ level s s.currPrio = [] := by
    rcases not_and_or.mp hcur with h | h
    · exact Or.inl (not_lt.mp h)
    · exact Or.inr ((empty_iff _).mp (by simpa using h))
  rcases hsearch : searchLevel s with - | l
  · have hothers := searchLevel_none s hsearch hs.curr_lt
    have hne : level s s.currPrio ≠ [] := by
      intro hnil
      refine hempty ((queueEmpty_iff s).mpr fun i hi => ?_)
      by_cases hic : i = s.currPrio
      · exact hic ▸ hnil
      · exact hothers i hi hic
    have hslot : s.currSlot ≤ 0 := hspent.resolve_right hne
    by_cases h0 : s.currPrio = 0
    · obtain ⟨p, rest, hq⟩ := List.exists_cons_of_ne_nil hne
      rw [h0] at hq
      obtain ⟨hp, ht⟩ := takeFrom_served prio s hs (by decide) (s.slot 0 - 1) hq
      simp only [hp]
      exact .fallback hslot h0 hothers hq ht
    · have hq := hothers 0 (by decide) (Ne.symm h0)
      obtain ⟨hp, ht⟩ := takeFrom_nil prio s (s.slot 0 - 1) hq
      simp only [hp]
      exact .lost hslot h0 hne hothers ht
  · obtain ⟨k, hk, hkm, rfl, hne, hbefore⟩ := searchLevel_some s hsearch
    obtain ⟨p, rest, hq⟩ := List.exists_cons_of_ne_nil hne
    obtain ⟨hp, ht⟩ := takeFrom_served prio s hs (Nat.mod_lt _ (by decide))
      (s.slot ((s.currPrio + k) % maxPrio) - 1) hq
    simp only [hp]
    exact .search hk hkm hspent hbefore hq ht

/-! ### The representation invariant over runs -/

theorem schedInv_init (prio : P → ℕ) : SchedInv prio (initScheduler : SchedState P) where
  uniform i _ p hp := by simp [level, initScheduler, QueueT.toList_new] at hp
  curr_lt := by simp [initScheduler]
  slot_nonneg := by simp [initScheduler]
  slot_le := by simp [initScheduler]
  slot_eq i hi := by simp only [initScheduler, if_pos hi]

theorem mem_levelPush {q : List P} {p x : P} (h : x ∈ levelPush q p) : x ∈ q ∨ x = p := by
  rw [levelPush] at h
  split_ifs at h
  · exact Or.inl h
  · simpa using h

theorem schedInv_putProc {prio : P → ℕ} {s : SchedState P} (hs : SchedInv prio s) (p : P) :
    SchedInv prio (putProc prio s p) where
  uniform i hi x hx := by
    rw [level_putProc] at hx
    by_cases hip : i = prio p
    · subst hip
      rw [Function.update_self] at hx
      rcases mem_levelPush hx with hx | rfl
      · exact hs.uniform _ hi x hx
      · rfl
    · rw [Function.update_of_ne hip] at hx
      exact hs.uniform i hi x hx
  curr_lt := hs.curr_lt
  slot_nonneg := hs.slot_nonneg
  slot_le := hs.slot_le
  slot_eq := hs.slot_eq

theorem Served.inv {prio : P → ℕ} {s t : SchedState P} {l : ℕ} {rest : List P} {c : ℤ}
    (h : Served s l rest c t) (hs : SchedInv prio s) (hl : l < maxPrio)
    (hrest : ∀ x ∈ rest, x ∈ level s l) (h0 : 0 ≤ c) (hc : c ≤ maxPrio - l) : SchedInv prio t where
  uniform i hi x hx := by
    rw [h.level_eq] at hx
    by_cases hil : i = l
    · subst hil
      rw [Function.update_self] at hx
      exact hs.uniform i hi x (hrest x hx)
    · rw [Function.update_of_ne hil] at hx
      exact hs.uniform i hi x hx
  curr_lt := h.prio_eq ▸ hl
  slot_nonneg := h.slot_eq ▸ h0
  slot_le := by rw [h.slot_eq, h.prio_eq]; exact hc
  slot_eq := h.quota_eq ▸ hs.slot_eq

theorem GetStep.inv {prio : P → ℕ} {s t : SchedState P} {r : Option P} (h : GetStep s r t)
    (hs : SchedInv prio s) : SchedInv prio t := by
  have hcl := hs.slot_le
  cases h with
  | idle => exact hs
  | current hslot hq hserved =>
    exact hserved.inv hs hs.curr_lt (by rw [hq]; exact fun x => List.mem_cons_of_mem _)
      (by omega) (by omega)
  | @search k p rest t hk hkm _ _ hq hserved =>
    have hl : (s.currPrio + k) % maxPrio < maxPrio := Nat.mod_lt _ (by decide)
    have hsl := hs.slot_eq _ hl
    exact hserved.inv hs hl (by rw [hq]; exact fun x => List.mem_cons_of_mem _)
      (by rw [hsl]; omega) (by rw [hsl]; omega)
  | fallback _ _ _ hq hserved =>
    have hsl := hs.slot_eq 0 (by decide)
    exact hserved.inv hs (by decide) (by rw [hq]; exact fun x => List.mem_cons_of_mem _)
      (by rw [hsl]; decide) (by rw [hsl]; decide)
  | lost _ _ _ _ hserved =>
    have hsl := hs.slot_eq 0 (by decide)
    exact hserved.inv hs (by decide) (fun x hx => absurd hx (List.not_mem_nil))
      (by rw [hsl]; decide) (by rw [hsl]; decide)

theorem schedInv_step {prio : P → ℕ} {s : SchedState P} (hs : SchedInv prio s) (op : SchedOp P) :
    SchedInv prio (schedStep prio s op).2 := by
  cases op with
  | add p => exact schedInv_putProc hs p
  | put p => exact schedInv_putProc hs p
  | get => exact (getProc_step prio s hs).inv hs

theorem SchedReachable.inv {prio : P → ℕ} {s : SchedState P} (h : SchedReachable prio s) :
    SchedInv prio s := by
  refine Reachable.invariant (SchedInv prio) ?_ ?_ h
  · intro s0 h0
    obtain rfl : s0 = initScheduler := h0
    exact schedInv_init prio
  · intro s1 op t hs _ ht
    obtain rfl : t = (schedStep prio s1 op).2 := ht
    exact schedInv_step hs op

/-! ### Work conservation -/

/-- `get_proc` returns `NULL` exactly when nothing waits, and otherwise takes
one waiting process and leaves everything else as it was. -/
structure WorkConserving (prio : P → ℕ) (s : SchedState P) : Prop where
  null_iff : (getProc prio s).1 = none ↔ ∀ i < maxPrio, level s i = []
  takes_one : ∀ p, (getProc prio s).1 = some p → ∃ l < maxPrio, ∃ before after,
    level s l = before ++ p :: after ∧
      level (getProc prio s).2 = Function.update (level s) l (before ++ after) ∧
      (getProc prio s).2.runningList = s.runningList

/-- The current level is not level 0, has used up its quota, and is the only
non-empty one. -/
def QuotaSpentAlone (s : SchedState P) : Prop :=
  s.currSlot = 0 ∧ s.currPrio ≠ 0 ∧ level s s.currPrio ≠ [] ∧
    ∀ i < maxPrio, i ≠ s.currPrio → level s i = []

instance (s : SchedState P) : Decidable (QuotaSpentAlone s) :=
  inferInstanceAs (Decidable (_ ∧ _ ∧ _ ∧ _))

theorem GetStep.takes_one {s t : SchedState P} {p : P} (hc : s.currPrio < maxPrio)
    (h : GetStep s (some p) t) : ∃ l < maxPrio, ∃ rest, level s l = p :: rest ∧
      level t = Function.update (level s) l rest ∧ t.runningList = s.runningList := by
  cases h with
  | current _ hq hserved => exact ⟨_, hc, _, hq, hserved.level_eq, hserved.running_eq⟩
  | search _ _ _ _ hq hserved =>
    exact ⟨_, Nat.mod_lt _ (by decide), _, hq, hserved.level_eq, hserved.running_eq⟩
  | fallback _ _ _ hq hserved => exact ⟨0, by decide, _, hq, hserved.level_eq, hserved.running_eq⟩

theorem GetStep.none_cases {prio : P → ℕ} {s t : SchedState P} (hs : SchedInv prio s)
    (h : GetStep s none t) :
    ((∀ i < maxPrio, level s i = []) ∧ t = s) ∨ (QuotaSpentAlone s ∧ level t = level s) := by
  cases h with
  | idle hempty => exact Or.inl ⟨hempty, rfl⟩
  | lost hslot h0 hne hothers hserved =>
    refine Or.inr ⟨⟨le_antisymm hslot hs.slot_nonneg, h0, hne, hothers⟩, ?_⟩
    rw [hserved.level_eq, ← hothers 0 (by decide) (Ne.symm h0), Function.update_eq_self]

theorem getProc_eq_none_of_quotaSpentAlone (prio : P → ℕ) {s : SchedState P}
    (hs : SchedInv prio s) (h : QuotaSpentAlone s) : (getProc prio s).1 = none := by
  obtain ⟨hslot, h0, hne, hothers⟩ := h
  have hstep := getProc_step prio s hs
  generalize (getProc prio s).1 = r, (getProc prio s).2 = t at hstep
  cases hstep with
  | idle => rfl
  | current hpos => omega
  | @search k p rest t hk hkm _ _ hq _ =>
    have hc := hs.curr_lt
    have hne' : (s.currPrio + k) % maxPrio ≠ s.currPrio := by
      simp only [maxPrio] at hkm hc ⊢
      omega
    rw [hothers _ (Nat.mod_lt _ (by decide)) hne'] at hq
    exact absurd hq (List.cons_ne_nil _ _).symm
  | fallback _ hz => exact absurd hz h0
  | lost => rfl

/-- In every reachable state `get_proc` is work conserving, except exactly where
the only non-empty level is the current one, it is not level 0 and its quota is
used up: there it answers `NULL` although a process waits. -/
theorem getProc_workConserving_iff (prio : P → ℕ) {s : SchedState P}
    (h : SchedReachable prio s) : WorkConserving prio s ↔ ¬QuotaSpentAlone s := by
  have hs := h.inv
  have hstep := getProc_step prio s hs
  constructor
  · intro hw hspent
    have hnull := getProc_eq_none_of_quotaSpentAlone prio hs hspent
    exact hspent.2.2.1 (hw.null_iff.mp hnull _ hs.curr_lt)
  · intro hspent
    refine ⟨⟨fun hnull => ?_, fun hempty => ?_⟩, fun p hp => ?_⟩
    · rw [hnull] at hstep
      exact ((hstep.none_cases hs).resolve_right fun hq => hspent hq.1).1
    · rcases hr : (getProc prio s).1 with - | p
      · rfl
      · rw [hr] at hstep
        obtain ⟨l, hl, rest, hq, -⟩ := hstep.takes_one hs.curr_lt
        rw [hempty l hl] at hq
        exact absurd hq (List.cons_ne_nil _ _).symm
    · rw [hp] at hstep
      obtain ⟨l, hl, rest, hq, ht, hrun⟩ := hstep.takes_one hs.curr_lt
      exact ⟨l, hl, [], rest, hq, ht, hrun⟩

theorem workConserving_after_add :
    WorkConserving (fun _ : Unit => 3) (addProc (fun _ => 3) initScheduler ()) := by
  have hr : SchedReachable (fun _ => 3) (addProc (fun _ : Unit => 3) initScheduler ()) :=
    .step (a := .add ()) (.init rfl) (show 3 < maxPrio by decide) rfl
  exact (getProc_workConserving_iff _ hr).mpr (by decide)

/-- One process of priority 139, whose level has a quota of one call: it is
added, taken, put back, and the next `get_proc` answers `NULL`. -/
theorem getProc_null_while_waiting :
    ∃ s : SchedState Unit, SchedReachable (fun _ => 139) s ∧ level s 139 = [()] ∧
      (getProc (fun _ => 139) s).1 = none := by
  have hok : ∀ op : SchedOp Unit, PrioOk (fun _ => 139) op
    | .add _ => show 139 < maxPrio by decide
    | .put _ => show 139 < maxPrio by decide
    | .get => trivial
  refine ⟨_, .step (a := .put ()) (.step (a := .get) (.step (a := .add ()) (.init rfl)
    (hok _) rfl) (hok _) rfl) (hok _) rfl, ?_, ?_⟩ <;> decide

end OsSim.Sched
