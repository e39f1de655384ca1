import OsSim.Base.Runs

/-!
# Bounded process queues (queue.c)

`queue_t` is an array of `MAX_QUEUE_SIZE` process pointers and a size. The
structure below carries what the code relies on: the size never exceeds the
array and the slots below it are not `NULL`, so every access of `enqueue` and
`dequeue` is in bounds by its type. `toList` is the abstract queue;
`toList_enqueue` and `dequeue_spec` say what the two operations do to it.
A process is only looked at through `prio`, its `proc->prio` field.
-/

namespace OsSim.Sched

/-- `MAX_QUEUE_SIZE` (`queue.h:7`). -/
abbrev maxQueueSize : ℕ := 10

/-- `struct queue_t` (`queue.h:9-12`); a `NULL` slot is `none`. -/
structure QueueT (P : Type) where
  proc : Fin maxQueueSize → Option P
  size : ℕ
  size_le : size ≤ maxQueueSize
  filled : ∀ i : Fin maxQueueSize, i.val < size → (proc i).isSome

namespace QueueT

variable {P : Type}

/-- `q->proc[i]` for `i` below the size. -/
def at' (q : QueueT P) (i : Fin q.size) : P :=
  (q.proc (i.castLE q.size_le)).get (q.filled _ i.isLt)

/-- The processes in the queue, oldest first. -/
def toList (q : QueueT P) : List P := List.ofFn q.at'

/-- A queue of static storage whose size is 0 (`sched.c:50`). -/
def new : QueueT P := ⟨fun _ => none, 0, Nat.zero_le _, fun _ h => absurd h (Nat.not_lt_zero _)⟩

theorem toList_new : (new : QueueT P).toList = [] := rfl

theorem length_toList (q : QueueT P) : q.toList.length = q.size := List.length_ofFn

theorem toList_getElem? (q : QueueT P) (i : ℕ) (h : i < q.size) :
    q.toList[i]? = q.proc ⟨i, h.trans_le q.size_le⟩ := by
  have hi : i < q.toList.length := by rw [length_toList]; exact h
  rw [List.getElem?_eq_getElem hi]
  simp only [toList, List.getElem_ofFn, at', Fin.castLE_mk, Option.some_get]

theorem toList_getElem?_eq_none (q : QueueT P) (i : ℕ) (h : q.size ≤ i) : q.toList[i]? = none :=
  List.getElem?_eq_none (by rw [length_toList]; exact h)

end QueueT

variable {P : Type}

/-- `empty` (`queue.c:6-11`). -/
def empty (q : QueueT P) : Bool := q.size == 0

theorem empty_iff (q : QueueT P) : empty q = true ↔ q.toList = [] := by
  rw [← List.length_eq_zero_iff, q.length_toList, empty, beq_iff_eq]

theorem empty_eq_false_iff (q : QueueT P) : empty q = false ↔ q.toList ≠ [] := by
  rw [← Bool.not_eq_true, not_congr (empty_iff q)]

/-- `q->proc[q->size] = proc; q->size++` below the capacity. -/
def push (q : QueueT P) (p : P) (h : q.size < maxQueueSize) : QueueT P where
  proc := Function.update q.proc ⟨q.size, h⟩ (some p)
  size := q.size + 1
  size_le := h
  filled := by
    intro i hi
    by_cases he : i = ⟨q.size, h⟩
    · simp [he]
    · have hne : i.val ≠ q.size := fun hv => he (Fin.ext hv)
      rw [Function.update_of_ne he]
      exact q.filled i (by omega)

theorem toList_push (q : QueueT P) (p : P) (h : q.size < maxQueueSize) :
    (push q p h).toList = q.toList ++ [p] := by
  apply List.ext_getElem?
  intro i
  rcases lt_trichotomy i q.size with hi | hi | hi
  · have hne : (⟨i, hi.trans h⟩ : Fin maxQueueSize) ≠ ⟨q.size, h⟩ :=
      fun hv => hi.ne (congrArg Fin.val hv)
    rw [(push q p h).toList_getElem? i (Nat.lt_succ_of_lt hi),
      List.getElem?_append_left (by rw [q.length_toList]; exact hi), q.toList_getElem? i hi]
    exact Function.update_of_ne hne _ _
  · subst hi
    rw [(push q p h).toList_getElem? q.size (Nat.lt_succ_self _),
      List.getElem?_append_right (by rw [q.length_toList]), q.length_toList]
    simp [push]
  · rw [(push q p h).toList_getElem?_eq_none i hi,
      List.getElem?_eq_none (by simp [q.length_toList]; omega)]

/-- `enqueue` (`queue.c:13-22`): nothing happens on a full queue. -/
def enqueue (q : QueueT P) (p : P) : QueueT P :=
  if h : q.size = maxQueueSize then q else push q p (lt_of_le_of_ne q.size_le h)

/-- The abstract effect of `enqueue`: append below the capacity, drop at it. -/
theorem toList_enqueue (q : QueueT P) (p : P) :
    (enqueue q p).toList =
      if q.toList.length = maxQueueSize then q.toList else q.toList ++ [p] := by
  rw [q.length_toList]
  by_cases h : q.size = maxQueueSize
  · simp only [enqueue, dif_pos h, if_pos h]
  · simp only [enqueue, dif_neg h, if_neg h, toList_push]

/-! ### `dequeue` (`queue.c:24-60`) -/

/-- The search loop (`queue.c:36-51`): the indices still to visit, in order. -/
def searchBest (prio : P → ℕ) (q : QueueT P) (best : Fin q.size) : List (Fin q.size) → Fin q.size
  | [] => best
  | i :: rest => searchBest prio q (if prio (q.at' i) < prio (q.at' best) then i else best) rest

/-- The shift loop (`queue.c:54-57`): `n` more copies `proc[i] = proc[i + 1]`. -/
def shiftLoop (a : Fin maxQueueSize → Option P) :
    (i n : ℕ) → i + n < maxQueueSize → Fin maxQueueSize → Option P
  | _, 0, _ => a
  | i, n + 1, h =>
    shiftLoop (Function.update a ⟨i, by omega⟩ (a ⟨i + 1, by omega⟩)) (i + 1) n (by omega)

theorem shiftLoop_apply (a : Fin maxQueueSize → Option P) (i n : ℕ) (h : i + n < maxQueueSize)
    (j : Fin maxQueueSize) :
    shiftLoop a i n h j =
      if hj : i ≤ j.val ∧ j.val < i + n then a ⟨j.val + 1, by omega⟩ else a j := by
  induction n generalizing a i with
  | zero =>
    have hno : ¬(i ≤ j.val ∧ j.val < i + 0) := by omega
    rw [dif_neg hno, shiftLoop]
  | succ n ih =>
    rw [shiftLoop, ih]
    by_cases hij : j.val = i
    · have hj : j = ⟨i, by omega⟩ := Fin.ext hij
      have hno : ¬(i + 1 ≤ j.val ∧ j.val < i + 1 + n) := by omega
      have hyes : i ≤ j.val ∧ j.val < i + (n + 1) := by omega
      have hnext : (⟨i + 1, by omega⟩ : Fin maxQueueSize) = ⟨j.val + 1, by omega⟩ :=
        Fin.ext (by simp only; omega)
      rw [dif_neg hno, dif_pos hyes, ← hnext, ← hj, Function.update_self]
    · by_cases hr : i + 1 ≤ j.val ∧ j.val < i + 1 + n
      · have hyes : i ≤ j.val ∧ j.val < i + (n + 1) := by omega
        have hne : (⟨j.val + 1, by omega⟩ : Fin maxQueueSize) ≠ ⟨i, by omega⟩ := by
          intro hv
          have := congrArg Fin.val hv
          simp only at this
          omega
        rw [dif_pos hr, dif_pos hyes, Function.update_of_ne hne]
      · have hno : ¬(i ≤ j.val ∧ j.val < i + (n + 1)) := by omega
        have hne : j ≠ ⟨i, by omega⟩ := fun hv => hij (congrArg Fin.val hv)
        rw [dif_neg hr, dif_neg hno, Function.update_of_ne hne]

/-- The slots after the shift loop and `proc[--size] = NULL`. -/
def removeAt (q : QueueT P) (best : Fin q.size) : QueueT P where
  proc := Function.update
    (shiftLoop q.proc best.val (q.size - 1 - best.val)
      (by have := best.isLt; have := q.size_le; omega))
    ⟨q.size - 1, by have := best.isLt; have := q.size_le; omega⟩ none
  size := q.size - 1
  size_le := (Nat.sub_le _ _).trans q.size_le
  filled := by
    intro i hi
    have hb := best.isLt
    have hne : i ≠ ⟨q.size - 1, by have := q.size_le; omega⟩ := by
      intro hv
      have := congrArg Fin.val hv
      simp only at this
      omega
    rw [Function.update_of_ne hne, shiftLoop_apply]
    split_ifs with hj
    · exact q.filled _ (by simp only; omega)
    · exact q.filled _ (by omega)

/-- `dequeue` (`queue.c:24-60`). -/
def dequeue (prio : P → ℕ) (q : QueueT P) : Option P × QueueT P :=
  if h : q.size = 0 then (none, q)
  else
    let best := searchBest prio q ⟨0, Nat.pos_of_ne_zero h⟩ (List.finRange q.size).tail
    (some (q.at' best), removeAt q best)

theorem toList_removeAt (q : QueueT P) (best : Fin q.size) :
    (removeAt q best).toList = q.toList.eraseIdx best.val := by
  have hb := best.isLt
  have hs := q.size_le
  apply List.ext_getElem?
  intro i
  by_cases hi : i < q.size - 1
  · rw [(removeAt q best).toList_getElem? i hi]
    have hne : (⟨i, by omega⟩ : Fin maxQueueSize) ≠ ⟨q.size - 1, by omega⟩ :=
      fun hv => hi.ne (congrArg Fin.val hv)
    simp only [removeAt, Function.update_of_ne hne, shiftLoop_apply]
    by_cases hbi : best.val ≤ i
    · rw [dif_pos (by omega), List.getElem?_eraseIdx_of_ge hbi, q.toList_getElem? (i + 1) (by omega)]
    · rw [dif_neg (by omega), List.getElem?_eraseIdx_of_lt (by omega),
        q.toList_getElem? i (by omega)]
  · rw [(removeAt q best).toList_getElem?_eq_none i (by simp only [removeAt]; omega),
      List.getElem?_eq_none]
    rw [List.length_eraseIdx_of_lt (by rw [q.length_toList]; exact hb), q.length_toList]
    omega

/-- What the search loop returns: the first of the least `prio` among the
indices seen. The induction is on the indices still to visit, all above `best`. -/
theorem searchBest_spec (prio : P → ℕ) (q : QueueT P) (rest : List (Fin q.size))
    (best : Fin q.size) (hsorted : (best :: rest).Pairwise (· < ·)) :
    let b := searchBest prio q best rest
    b ∈ best :: rest ∧ ∀ j ∈ best :: rest, prio (q.at' b) ≤ prio (q.at' j) ∧
      (j < b → prio (q.at' b) < prio (q.at' j)) := by
  induction rest generalizing best with
  | nil =>
    refine ⟨by simp [searchBest], fun j hj => ?_⟩
    have hjb : j = best := List.mem_singleton.mp hj
    subst hjb
    exact ⟨le_rfl, fun hlt => absurd hlt (lt_irrefl _)⟩
  | cons i rest ih =>
    obtain ⟨hbest, hi⟩ := List.pairwise_cons.mp hsorted
    obtain ⟨hirest, hrest⟩ := List.pairwise_cons.mp hi
    have hlt : best < i := hbest i (List.mem_cons_self ..)
    rw [searchBest]
    split_ifs with hp
    · obtain ⟨hmem, hmin⟩ := ih i (List.pairwise_cons.mpr ⟨hirest, hrest⟩)
      refine ⟨List.mem_cons_of_mem _ hmem, fun j hj => ?_⟩
      rcases List.mem_cons.mp hj with hj | hj
      · have hle := (hmin i (List.mem_cons_self ..)).1
        subst hj
        exact ⟨by omega, fun _ => by omega⟩
      · exact hmin j hj
    · have hsub : (best :: rest).Pairwise (· < ·) :=
        List.pairwise_cons.mpr ⟨fun j hj => hbest j (List.mem_cons_of_mem _ hj), hrest⟩
      obtain ⟨hmem, hmin⟩ := ih best hsub
      have hfst := hmin best (List.mem_cons_self ..)
      refine ⟨?_, fun j hj => ?_⟩
      · rcases List.mem_cons.mp hmem with hb | hb
        · exact List.mem_cons.mpr (Or.inl hb)
        · exact List.mem_cons_of_mem _ (List.mem_cons_of_mem _ hb)
      · rcases List.mem_cons.mp hj with hj | hj
        · subst hj
          exact hfst
        · rcases List.mem_cons.mp hj with hj | hj
          · subst hj
            refine ⟨by omega, fun hjb => ?_⟩
            have := hfst.2 (hlt.trans hjb)
            omega
          · exact hmin j (List.mem_cons_of_mem _ hj)

theorem finRange_eq_cons {n : ℕ} (h : 0 < n) :
    List.finRange n = ⟨0, h⟩ :: (List.finRange n).tail := by
  cases n with
  | zero => omega
  | succ n => simp [List.finRange_succ]

theorem dequeue_nil (prio : P → ℕ) (q : QueueT P) (h : q.toList = []) :
    dequeue prio q = (none, q) := by
  have hs : q.size = 0 := by rw [← q.length_toList, h]; rfl
  rw [dequeue, dif_pos hs]

/-- The abstract effect of `dequeue` on a non-empty queue: the first process of
the least `prio` leaves, the others keep their order. -/
theorem dequeue_spec (prio : P → ℕ) (q : QueueT P) (h : q.toList ≠ []) :
    ∃ before p after, q.toList = before ++ p :: after ∧ (dequeue prio q).1 = some p ∧
      (dequeue prio q).2.toList = before ++ after ∧ (∀ x ∈ before, prio p < prio x) ∧
      ∀ x ∈ after, prio p ≤ prio x := by
  have hs : q.size ≠ 0 := by
    intro h0
    exact h (List.length_eq_zero_iff.mp (q.length_toList.trans h0))
  have hpos := Nat.pos_of_ne_zero hs
  have hsorted : ((⟨0, hpos⟩ : Fin q.size) :: (List.finRange q.size).tail).Pairwise (· < ·) :=
    finRange_eq_cons hpos ▸ List.pairwise_lt_finRange _
  obtain ⟨-, hmin⟩ := searchBest_spec prio q _ _ hsorted
  rw [← finRange_eq_cons hpos] at hmin
  simp only [dequeue, dif_neg hs]
  generalize searchBest prio q ⟨0, hpos⟩ (List.finRange q.size).tail = b at hmin
  have hb : b.val < q.toList.length := by rw [q.length_toList]; exact b.isLt
  have hget : ∀ (i : ℕ) (hi : i < q.toList.length),
      q.toList[i] = q.at' ⟨i, by rw [← q.length_toList]; exact hi⟩ := fun i hi =>
    List.getElem_ofFn _
  refine ⟨q.toList.take b.val, q.at' b, q.toList.drop (b.val + 1), ?_, rfl, ?_, ?_, ?_⟩
  · have hsplit := List.take_append_drop b.val q.toList
    rw [List.drop_eq_getElem_cons hb, hget b.val hb] at hsplit
    exact hsplit.symm
  · rw [toList_removeAt, List.eraseIdx_eq_take_drop_succ]
  · intro x hx
    obtain ⟨i, hi, rfl⟩ := List.mem_take_iff_getElem.mp hx
    have hib : i < b.val := (lt_min_iff.mp hi).1
    rw [hget]
    exact (hmin _ (List.mem_finRange _)).2 hib
  · intro x hx
    obtain ⟨i, hi, rfl⟩ := List.mem_drop_iff_getElem.mp hx
    rw [hget]
    exact (hmin _ (List.mem_finRange _)).1

/-- A queue that holds one `prio` is a plain FIFO. -/
theorem dequeue_uniform (prio : P → ℕ) (q : QueueT P) (k : ℕ)
    (hk : ∀ x ∈ q.toList, prio x = k) {p : P} {rest : List P} (h : q.toList = p :: rest) :
    (dequeue prio q).1 = some p ∧ (dequeue prio q).2.toList = rest := by
  obtain ⟨before, p', after, hq, hp, hrest, hbefore, -⟩ :=
    dequeue_spec prio q (by rw [h]; exact List.cons_ne_nil _ _)
  cases before with
  | nil =>
    rw [h] at hq
    obtain ⟨rfl, rfl⟩ := List.cons.inj hq
    exact ⟨hp, hrest⟩
  | cons x before =>
    have hx := hbefore x (List.mem_cons_self ..)
    have h1 := hk x (by rw [hq]; simp)
    have h2 := hk p' (by rw [hq]; simp)
    omega

end OsSim.Sched
