import OsSim.Sched.Mlq

/-!
# Bounded waiting

A process that waits at index `i` of level `q` is returned by one of the next
`(i + 1) * (S + 1)` calls of `get_proc`, `S` being the sum of the quotas of the
other levels. `wait s q` bounds the calls that can pass before level `q` is
served next: what the current level has left plus the full quotas of the levels
the circular search meets before `q`. Arrivals do not change it and every call
that does not serve `q` makes it smaller, the fallback to level 0 included.
-/

namespace OsSim.Sched

variable {P : Type}

/-- The sum of `MAX_PRIO - p` over the levels `p` other than `q`. -/
def otherQuota (q : ℕ) : ℕ := ∑ p ∈ (Finset.range maxPrio).erase q, (maxPrio - p)

/-- The calls level `p` can still get before the search reaches level `q`. -/
def weight (s : SchedState P) (q p : ℕ) : ℕ :=
  if p = s.currPrio then s.currSlot.toNat
  else if (p + maxPrio - s.currPrio) % maxPrio < (q + maxPrio - 1 - s.currPrio) % maxPrio + 1 then
    maxPrio - p
  else 0

def wait (s : SchedState P) (q : ℕ) : ℕ := ∑ p ∈ (Finset.range maxPrio).erase q, weight s q p

theorem wait_le_otherQuota {prio : P → ℕ} {s : SchedState P} (hs : SchedInv prio s) (q : ℕ) :
    wait s q ≤ otherQuota q := by
  refine Finset.sum_le_sum fun p _ => ?_
  have hle := hs.slot_le
  have hlt := hs.curr_lt
  rw [weight]
  split_ifs with hp
  · omega
  · exact le_rfl
  · exact Nat.zero_le _

/-- `wait` drops when no level gains and one level other than `q` loses a call. -/
theorem wait_lt {s t : SchedState P} {q l : ℕ} (hl : l < maxPrio) (hlq : l ≠ q)
    (hle : ∀ p < maxPrio, p ≠ q → weight t q p ≤ weight s q p) (hlt : weight t q l < weight s q l) :
    wait t q < wait s q := by
  refine Finset.sum_lt_sum (fun p hp => ?_) ⟨l, ?_, hlt⟩
  · obtain ⟨hpq, hp⟩ := Finset.mem_erase.mp hp
    exact hle p (Finset.mem_range.mp hp) hpq
  · exact Finset.mem_erase.mpr ⟨hlq, Finset.mem_range.mpr hl⟩

theorem wait_current {s t : SchedState P} {q : ℕ} {rest : List P} (hc : s.currPrio < maxPrio)
    (hpos : 0 < s.currSlot) (hq : s.currPrio ≠ q)
    (h : Served s s.currPrio rest (s.currSlot - 1) t) : wait t q < wait s q := by
  refine wait_lt hc hq (fun p _ _ => ?_) ?_
  · simp only [weight, h.prio_eq, h.slot_eq]
    split_ifs <;> omega
  · simp only [weight, h.prio_eq, h.slot_eq, if_pos]
    omega

/-- A level met between `l` and `q` is met between `c` and `q` if `l` is. -/
theorem before_of_before {c l p q : ℕ} (hc : c < maxPrio) (hl : l < maxPrio) (hp : p < maxPrio)
    (hq : q < maxPrio) (hlc : l ≠ c)
    (hbefore : (l + maxPrio - c) % maxPrio < (q + maxPrio - 1 - c) % maxPrio + 1)
    (h : (p + maxPrio - l) % maxPrio < (q + maxPrio - 1 - l) % maxPrio + 1) :
    p ≠ c ∧ (p + maxPrio - c) % maxPrio < (q + maxPrio - 1 - c) % maxPrio + 1 := by
  simp only [maxPrio] at *
  omega

/-- Another level `l` before `q` is served: only the levels from there to `q` count on. -/
theorem wait_moved {prio : P → ℕ} {s t : SchedState P} {q l : ℕ} {rest : List P}
    (hs : SchedInv prio s) (hq : q < maxPrio) (hl : l < maxPrio) (hlq : l ≠ q)
    (hlc : l ≠ s.currPrio)
    (hbefore : (l + maxPrio - s.currPrio) % maxPrio < (q + maxPrio - 1 - s.currPrio) % maxPrio + 1)
    (h : Served s l rest (s.slot l - 1) t) : wait t q < wait s q := by
  have hslot := h.slot_eq
  rw [hs.slot_eq l hl] at hslot
  have hlost : weight t q l < weight s q l := by
    rw [weight, weight, h.prio_eq, hslot, if_pos rfl, if_neg hlc, if_pos hbefore]
    omega
  refine wait_lt hl hlq (fun p hp _ => ?_) hlost
  by_cases hpl : p = l
  · rw [hpl]
    exact hlost.le
  · rw [weight, h.prio_eq, if_neg hpl]
    by_cases hmet : (p + maxPrio - l) % maxPrio < (q + maxPrio - 1 - l) % maxPrio + 1
    · obtain ⟨hpc, hpbefore⟩ := before_of_before hs.curr_lt hl hp hq hlc hbefore hmet
      rw [if_pos hmet, weight, if_neg hpc, if_pos hpbefore]
    · rw [if_neg hmet]
      exact Nat.zero_le _

/-- The search stopped at a level before `q`. -/
theorem wait_search {prio : P → ℕ} {s t : SchedState P} {q k : ℕ} {rest : List P}
    (hs : SchedInv prio s) (hqlt : q < maxPrio) (hk : 0 < k) (hkm : k < maxPrio)
    (hlq : (s.currPrio + k) % maxPrio ≠ q)
    (hbefore : k < (q + maxPrio - 1 - s.currPrio) % maxPrio + 1)
    (h : Served s ((s.currPrio + k) % maxPrio) rest
      (s.slot ((s.currPrio + k) % maxPrio) - 1) t) : wait t q < wait s q := by
  have hc := hs.curr_lt
  have hdist : ((s.currPrio + k) % maxPrio + maxPrio - s.currPrio) % maxPrio = k := by
    simp only [maxPrio] at *
    omega
  refine wait_moved hs hqlt (Nat.mod_lt _ (by decide)) hlq ?_ (by rw [hdist]; exact hbefore) h
  simp only [maxPrio] at *
  omega

theorem wait_lost {prio : P → ℕ} {s t : SchedState P} (hs : SchedInv prio s)
    (h0 : s.currPrio ≠ 0) (h : Served s 0 [] (s.slot 0 - 1) t) :
    wait t s.currPrio < wait s s.currPrio := by
  have hc := hs.curr_lt
  refine wait_moved hs hc (by decide) (Ne.symm h0) (Ne.symm h0) ?_ h
  simp only [maxPrio] at *
  omega

/-- One `get_proc` with a process waiting at level `q`: it serves the head of
level `q`, or leaves the level alone and brings it closer. -/
theorem GetStep.serves_or_waits {prio : P → ℕ} {s t : SchedState P} {r : Option P}
    (hs : SchedInv prio s) (h : GetStep s r t) {q : ℕ} (hq : q < maxPrio) (hne : level s q ≠ []) :
    (∃ p rest, level s q = p :: rest ∧ r = some p ∧ level t q = rest) ∨
      (level t q = level s q ∧ wait t q < wait s q) := by
  have hc := hs.curr_lt
  cases h with
  | idle hempty => exact absurd (hempty q hq) hne
  | @current p rest t hpos hhead hserved =>
    by_cases hcq : s.currPrio = q
    · subst hcq
      exact Or.inl ⟨p, rest, hhead, rfl, by rw [hserved.level_eq, Function.update_self]⟩
    · refine Or.inr ⟨?_, wait_current hc hpos hcq hserved⟩
      rw [hserved.level_eq, Function.update_of_ne (Ne.symm hcq)]
  | @search k p rest t hk hkm _ hskip hhead hserved =>
    by_cases hlq : (s.currPrio + k) % maxPrio = q
    · subst hlq
      exact Or.inl ⟨p, rest, hhead, rfl, by rw [hserved.level_eq, Function.update_self]⟩
    · have hbefore : k < (q + maxPrio - 1 - s.currPrio) % maxPrio + 1 := by
        -- otherwise the search would have stopped at level q
        by_contra hge
        have hcq : s.currPrio ≠ q := by
          intro hcq
          simp only [maxPrio] at *
          omega
        have hskipq := hskip ((q + maxPrio - s.currPrio) % maxPrio)
          (by simp only [maxPrio] at *; omega) (by simp only [maxPrio] at *; omega)
        have hmod : (s.currPrio + (q + maxPrio - s.currPrio) % maxPrio) % maxPrio = q := by
          simp only [maxPrio] at *
          omega
        exact hne (hmod ▸ hskipq)
      refine Or.inr ⟨?_, wait_search hs hq hk hkm hlq hbefore hserved⟩
      rw [hserved.level_eq, Function.update_of_ne (Ne.symm hlq)]
  | @fallback p rest t _ h0 hothers hhead hserved =>
    have hq0 : q = 0 := by
      by_contra hq0
      exact hne (hothers q hq (by rw [h0]; exact hq0))
    subst hq0
    exact Or.inl ⟨p, rest, hhead, rfl, by rw [hserved.level_eq, Function.update_self]⟩
  | lost _ h0 _ hothers hserved =>
    have hcq : q = s.currPrio := by
      by_contra hcq
      exact hne (hothers q hq hcq)
    subst hcq
    refine Or.inr ⟨?_, wait_lost hs h0 hserved⟩
    rw [hserved.level_eq, Function.update_of_ne h0]

/-! ### Continuations -/

/-- The results of the `get_proc` calls of a sequence of operations, in order. -/
def getResults (prio : P → ℕ) : SchedState P → List (SchedOp P) → List (Option P)
  | _, [] => []
  | s, .get :: ops => (getProc prio s).1 :: getResults prio (getProc prio s).2 ops
  | s, .add p :: ops => getResults prio (addProc prio s p) ops
  | s, .put p :: ops => getResults prio (putProc prio s p) ops

/-- The number of `get_proc` calls in a sequence of operations. -/
def gets : List (SchedOp P) → ℕ
  | [] => 0
  | .get :: ops => gets ops + 1
  | _ :: ops => gets ops

theorem length_getResults (prio : P → ℕ) (ops : List (SchedOp P)) (s : SchedState P) :
    (getResults prio s ops).length = gets ops := by
  induction ops generalizing s with
  | nil => rfl
  | cons op ops ih => cases op <;> simp only [getResults, gets, List.length_cons, ih]

theorem gets_replicate (n : ℕ) : gets (List.replicate n (.get : SchedOp P)) = n := by
  induction n with
  | zero => rfl
  | succ n ih => rw [List.replicate_succ, gets, ih]

theorem getElem?_levelPush {q : List P} {x p : P} {i : ℕ} (h : q[i]? = some p) :
    (levelPush q x)[i]? = some p := by
  have hi : i < q.length := (List.getElem?_eq_some_iff.mp h).1
  rw [levelPush]
  split_ifs
  · exact h
  · rw [List.getElem?_append_left hi, h]

theorem getElem?_level_putProc {prio : P → ℕ} {s : SchedState P} {x p : P} {q i : ℕ}
    (h : (level s q)[i]? = some p) : (level (putProc prio s x) q)[i]? = some p := by
  rw [level_putProc]
  by_cases hq : q = prio x
  · subst hq
    rw [Function.update_self]
    exact getElem?_levelPush h
  · rw [Function.update_of_ne hq, h]

/-- The process at index `i` of level `q` is among the results of the next
`i * (S + 1) + wait s q + 1` calls. The induction is on the operations. -/
theorem getResults_within {prio : P → ℕ} {q : ℕ} (hq : q < maxPrio) (p : P)
    (ops : List (SchedOp P)) :
    ∀ (s : SchedState P) (i : ℕ), SchedInv prio s → (level s q)[i]? = some p →
      i * (otherQuota q + 1) + wait s q + 1 ≤ (getResults prio s ops).length →
      ∃ k < i * (otherQuota q + 1) + wait s q + 1, (getResults prio s ops)[k]? = some (some p) := by
  induction ops with
  | nil => intro s i _ _ hlen; simp [getResults] at hlen
  | cons op ops ih =>
    intro s i hs hi hlen
    cases op with
    | add x => exact ih _ i (schedInv_putProc hs x) (getElem?_level_putProc hi) hlen
    | put x => exact ih _ i (schedInv_putProc hs x) (getElem?_level_putProc hi) hlen
    | get =>
      have hstep := getProc_step prio s hs
      have hinv := hstep.inv hs
      have hne : level s q ≠ [] := by
        intro hnil
        simp [hnil] at hi
      have hw := wait_le_otherQuota hinv q
      simp only [getResults, List.length_cons] at hlen ⊢
      rcases hstep.serves_or_waits hs hq hne with ⟨x, rest, hhead, hr, hrest⟩ | ⟨hsame, hlt⟩
      · cases i with
        | zero =>
          have hxp : x = p := by simpa [hhead] using hi
          exact ⟨0, by omega, by rw [List.getElem?_cons_zero, hr, hxp]⟩
        | succ i =>
          have hi' : (level (getProc prio s).2 q)[i]? = some p := by
            rw [hrest]
            simpa [hhead] using hi
          have hbudget : (i + 1) * (otherQuota q + 1) = i * (otherQuota q + 1) + otherQuota q + 1 := by
            ring
          obtain ⟨k, hk, hres⟩ := ih _ i hinv hi' (by omega)
          exact ⟨k + 1, by omega, by rw [List.getElem?_cons_succ, hres]⟩
      · obtain ⟨k, hk, hres⟩ := ih _ i hinv (hsame ▸ hi) (by omega)
        exact ⟨k + 1, by omega, by rw [List.getElem?_cons_succ, hres]⟩

/-- No starvation: from every reachable state, every continuation with enough
`get_proc` calls returns the waiting process in time. -/
theorem getProc_bounded_waiting (prio : P → ℕ) {s : SchedState P} (h : SchedReachable prio s)
    {q i : ℕ} {p : P} (hq : q < maxPrio) (hi : (level s q)[i]? = some p)
    (ops : List (SchedOp P)) (hgets : (i + 1) * (otherQuota q + 1) ≤ gets ops) :
    ∃ k < (i + 1) * (otherQuota q + 1), (getResults prio s ops)[k]? = some (some p) := by
  have hw := wait_le_otherQuota h.inv q
  have hbudget : (i + 1) * (otherQuota q + 1) = i * (otherQuota q + 1) + otherQuota q + 1 := by
    ring
  rw [← length_getResults prio ops s] at hgets
  obtain ⟨k, hk, hres⟩ := getResults_within hq p ops s i h.inv hi (by omega)
  exact ⟨k, by omega, hres⟩

theorem getProc_returns_only_process :
    ∃ k < (0 + 1) * (otherQuota 3 + 1),
      (getResults (fun _ => 3) (addProc (fun _ : Unit => 3) initScheduler ())
        (List.replicate ((0 + 1) * (otherQuota 3 + 1)) .get))[k]? = some (some ()) := by
  have hr : SchedReachable (fun _ => 3) (addProc (fun _ : Unit => 3) initScheduler ()) :=
    .step (a := .add ()) (.init rfl) (show 3 < maxPrio by decide) rfl
  exact getProc_bounded_waiting _ hr (by decide) (by decide) _ (gets_replicate _).ge

end OsSim.Sched
