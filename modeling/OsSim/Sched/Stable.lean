import OsSim.Sched.Queue

/-!
# The queue array, access by access

`enqueue` and `dequeue` on the bare array and counter of `queue.h`: an index
outside `proc[0..MAX_QUEUE_SIZE-1]` or a look through a `NULL` slot has no
result (`none`). On every queue whose slots below the size are processes they
are defined and do what `push` and `dequeue` of `Queue` do, so the order of the
processes can be read off the lists there.
-/

namespace OsSim.Sched

structure RawQueue (P : Type) where
  proc : Fin maxQueueSize → Option P
  size : ℕ

variable {P : Type}

def QueueT.raw (q : QueueT P) : RawQueue P := ⟨q.proc, q.size⟩

@[simp] theorem QueueT.raw_proc (q : QueueT P) : q.raw.proc = q.proc := rfl
@[simp] theorem QueueT.raw_size (q : QueueT P) : q.raw.size = q.size := rfl

def slotRead (a : Fin maxQueueSize → Option P) (i : ℕ) : Option (Option P) :=
  if h : i < maxQueueSize then some (a ⟨i, h⟩) else none

def slotWrite (a : Fin maxQueueSize → Option P) (i : ℕ) (v : Option P) :
    Option (Fin maxQueueSize → Option P) :=
  if h : i < maxQueueSize then some (Function.update a ⟨i, h⟩ v) else none

/-- `enqueue` (`queue.c:13-22`). -/
def rawEnqueue (q : RawQueue P) (p : P) : Option (RawQueue P) :=
  if q.size = maxQueueSize then some q
  else do
    let proc ← slotWrite q.proc q.size (some p)
    some ⟨proc, q.size + 1⟩

/-- One round of the search loop (`queue.c:41-44`). -/
def rawSearch (prio : P → ℕ) (a : Fin maxQueueSize → Option P) (best i : ℕ) : Option ℕ := do
  let p ← (← slotRead a i)
  let b ← (← slotRead a best)
  some (if prio p < prio b then i else best)

/-- One round of the shift loop (`queue.c:56`). -/
def rawShift (a : Fin maxQueueSize → Option P) (i : ℕ) : Option (Fin maxQueueSize → Option P) := do
  let next ← slotRead a (i + 1)
  slotWrite a i next

/-- `dequeue` (`queue.c:24-60`). -/
def rawDequeue (prio : P → ℕ) (q : RawQueue P) : Option (Option P × RawQueue P) :=
  if q.size = 0 then some (none, q)
  else do
    let best ← (List.range' 1 (q.size - 1)).foldlM (rawSearch prio q.proc) 0
    let p ← slotRead q.proc best
    let shifted ← (List.range' best (q.size - 1 - best)).foldlM rawShift q.proc
    let proc ← slotWrite shifted (q.size - 1) none
    some (p, ⟨proc, q.size - 1⟩)

/-! ### They are the operations of `Queue` -/

theorem slotRead_at (q : QueueT P) (i : Fin q.size) : slotRead q.proc i = some (some (q.at' i)) := by
  have hi := i.isLt.trans_le q.size_le
  rw [slotRead, dif_pos hi]
  exact congrArg some (Option.some_get _).symm

theorem rawEnqueue_eq (q : QueueT P) (p : P) : rawEnqueue q.raw p = some (enqueue q p).raw := by
  unfold rawEnqueue enqueue
  rw [QueueT.raw_size, QueueT.raw_proc]
  by_cases h : q.size = maxQueueSize
  · rw [if_pos h, dif_pos h]
  · have hlt := lt_of_le_of_ne q.size_le h
    rw [if_neg h, dif_neg h, slotWrite, dif_pos hlt]
    rfl

theorem rawSearch_eq (prio : P → ℕ) (q : QueueT P) (best i : Fin q.size) :
    rawSearch prio q.proc best i =
      some ((if prio (q.at' i) < prio (q.at' best) then i else best : Fin q.size) : ℕ) := by
  unfold rawSearch
  rw [slotRead_at, slotRead_at, apply_ite Fin.val]
  rfl

theorem rawSearch_foldlM (prio : P → ℕ) (q : QueueT P) (best : Fin q.size)
    (rest : List (Fin q.size)) :
    (rest.map Fin.val).foldlM (rawSearch prio q.proc) best.val =
      some (searchBest prio q best rest).val := by
  induction rest generalizing best with
  | nil => rfl
  | cons i rest ih =>
    rw [List.map_cons, List.foldlM_cons, rawSearch_eq, searchBest]
    exact ih _

theorem finRange_tail_val (n : ℕ) : (List.finRange n).tail.map Fin.val = List.range' 1 (n - 1) := by
  rw [List.map_tail, List.map_coe_finRange_eq_range, List.range_eq_range', List.tail_range']

theorem rawShift_foldlM (a : Fin maxQueueSize → Option P) (i n : ℕ) (h : i + n < maxQueueSize) :
    (List.range' i n).foldlM rawShift a = some (shiftLoop a i n h) := by
  induction n generalizing a i with
  | zero => rfl
  | succ n ih =>
    have hround : rawShift a i =
        some (Function.update a ⟨i, by omega⟩ (a ⟨i + 1, by omega⟩)) := by
      unfold rawShift slotRead slotWrite
      rw [dif_pos (show i + 1 < maxQueueSize by omega), Option.bind_eq_bind, Option.bind_some,
        dif_pos (show i < maxQueueSize by omega)]
    rw [List.range'_succ, List.foldlM_cons, hround, Option.bind_eq_bind, Option.bind_some,
      ih _ _ (by omega), shiftLoop]

/-- Every access is inside the array and no `NULL` is looked through. -/
theorem rawDequeue_eq (prio : P → ℕ) (q : QueueT P) :
    rawDequeue prio q.raw = some ((dequeue prio q).1, (dequeue prio q).2.raw) := by
  unfold rawDequeue dequeue
  rw [QueueT.raw_size, QueueT.raw_proc]
  by_cases h : q.size = 0
  · rw [if_pos h, dif_pos h]
  · have hpos := Nat.pos_of_ne_zero h
    have hsearch := rawSearch_foldlM prio q ⟨0, hpos⟩ (List.finRange q.size).tail
    rw [finRange_tail_val] at hsearch
    rw [if_neg h, dif_neg h]
    generalize searchBest prio q ⟨0, hpos⟩ (List.finRange q.size).tail = best at hsearch
    have hbest := best.isLt
    have hsize := q.size_le
    have hshift := rawShift_foldlM q.proc best.val (q.size - 1 - best.val) (by omega)
    rw [hsearch, Option.bind_eq_bind, Option.bind_some, slotRead_at, Option.bind_eq_bind,
      Option.bind_some, hshift, Option.bind_eq_bind, Option.bind_some, slotWrite,
      dif_pos (show q.size - 1 < maxQueueSize by omega)]
    rfl

/-! ### Sequences of operations on processes of one `prio` -/

inductive QueueOp (P : Type) where
  | enqueue (p : P)
  | dequeue

/-- The results of the `dequeue`s and the queue at the end. -/
def rawRun (prio : P → ℕ) : RawQueue P → List (QueueOp P) → Option (List (Option P) × RawQueue P)
  | q, [] => some ([], q)
  | q, .enqueue p :: ops => do
    let q ← rawEnqueue q p
    rawRun prio q ops
  | q, .dequeue :: ops => do
    let (p, q) ← rawDequeue prio q
    let (results, q) ← rawRun prio q ops
    some (p :: results, q)

/-- The same sequence on a list that is filled at its end and emptied at its front. -/
def fifoRun : List P → List (QueueOp P) → List (Option P) × List P
  | l, [] => ([], l)
  | l, .enqueue p :: ops => fifoRun (l ++ [p]) ops
  | l, .dequeue :: ops => (l.head? :: (fifoRun l.tail ops).1, (fifoRun l.tail ops).2)

/-- Every `enqueue` is below the capacity and of a process of the one `prio`. -/
def FifoOk (prio : P → ℕ) (k : ℕ) : List P → List (QueueOp P) → Prop
  | _, [] => True
  | l, .enqueue p :: ops => prio p = k ∧ l.length < maxQueueSize ∧ FifoOk prio k (l ++ [p]) ops
  | l, .dequeue :: ops => FifoOk prio k l.tail ops

/-- One `dequeue` takes the head. -/
theorem dequeue_head (prio : P → ℕ) {k : ℕ} (q : QueueT P) (hk : ∀ x ∈ q.toList, prio x = k) :
    (dequeue prio q).1 = q.toList.head? ∧ (dequeue prio q).2.toList = q.toList.tail := by
  cases h : q.toList with
  | nil =>
    rw [dequeue_nil prio q h, h]
    exact ⟨rfl, rfl⟩
  | cons p rest => exact dequeue_uniform prio q k hk h

/-- By induction on the operations; the processes left are still of the one `prio`. -/
theorem rawRun_fifo (prio : P → ℕ) (k : ℕ) (ops : List (QueueOp P)) (q : QueueT P)
    (hk : ∀ x ∈ q.toList, prio x = k) (hok : FifoOk prio k q.toList ops) :
    ∃ q' : QueueT P, rawRun prio q.raw ops = some ((fifoRun q.toList ops).1, q'.raw) ∧
      q'.toList = (fifoRun q.toList ops).2 := by
  induction ops generalizing q with
  | nil => exact ⟨q, rfl, rfl⟩
  | cons op ops ih =>
    cases op with
    | enqueue p =>
      obtain ⟨hp, hlt, hrest⟩ := hok
      have hpush : (enqueue q p).toList = q.toList ++ [p] := by
        rw [toList_enqueue, if_neg hlt.ne]
      rw [← hpush] at hrest
      have hall : ∀ x ∈ (enqueue q p).toList, prio x = k := by
        intro x hx
        rw [hpush, List.mem_append, List.mem_singleton] at hx
        cases hx with
        | inl hx => exact hk x hx
        | inr hx => exact hx ▸ hp
      obtain ⟨q', hrun, hlist⟩ := ih (enqueue q p) hall hrest
      rw [hpush] at hrun hlist
      refine ⟨q', ?_, hlist⟩
      rw [rawRun, rawEnqueue_eq]
      exact hrun
    | dequeue =>
      obtain ⟨hhead, htail⟩ := dequeue_head prio q hk
      have hall : ∀ x ∈ (dequeue prio q).2.toList, prio x = k := by
        intro x hx
        rw [htail] at hx
        exact hk x (List.mem_of_mem_tail hx)
      have hrest : FifoOk prio k q.toList.tail ops := hok
      rw [← htail] at hrest
      obtain ⟨q', hrun, hlist⟩ := ih (dequeue prio q).2 hall hrest
      rw [htail] at hrun hlist
      refine ⟨q', ?_, hlist⟩
      rw [rawRun, rawDequeue_eq, Option.bind_eq_bind, Option.bind_some]
      dsimp only
      rw [hrun, hhead]
      rfl

/-- `dequeue` stays inside the array and takes the first of the least `prio`,
the others keeping their order; on one `prio` any sequence is first in, first
out. -/
theorem dequeue_stable (prio : P → ℕ) :
    (∀ q : QueueT P, 1 ≤ q.size → ∃ before p after, ∃ q' : QueueT P,
      q.toList = before ++ p :: after ∧ rawDequeue prio q.raw = some (some p, q'.raw) ∧
      q'.toList = before ++ after ∧ q'.size + 1 = q.size ∧ (∀ x ∈ before, prio p < prio x) ∧
      ∀ x ∈ after, prio p ≤ prio x) ∧
    ∀ k ops, ∀ q : QueueT P, (∀ x ∈ q.toList, prio x = k) → FifoOk prio k q.toList ops →
      ∃ q' : QueueT P, rawRun prio q.raw ops = some ((fifoRun q.toList ops).1, q'.raw) ∧
        q'.toList = (fifoRun q.toList ops).2 := by
  refine ⟨fun q hq => ?_, rawRun_fifo prio⟩
  have hne : q.toList ≠ [] := by
    intro hnil
    have hlen := q.length_toList
    rw [hnil, List.length_nil] at hlen
    omega
  obtain ⟨before, p, after, hlist, hp, hrest, hbefore, hafter⟩ := dequeue_spec prio q hne
  refine ⟨before, p, after, (dequeue prio q).2, hlist, ?_, hrest, ?_, hbefore, hafter⟩
  · rw [rawDequeue_eq, hp]
  · rw [← QueueT.length_toList, ← QueueT.length_toList, hrest, hlist]
    simp only [List.length_append, List.length_cons]
    omega

/-- Processes 0, 1 and 2 of `prio` 2, 1 and 1, and two turns on an empty queue. -/
theorem dequeue_stable_three :
    (∃ before p after, ∃ q' : QueueT (Fin 3), [0, 1, 2] = before ++ p :: after ∧
      rawDequeue ![2, 1, 1] (enqueue (enqueue (enqueue .new 0) 1) 2).raw = some (some p, q'.raw) ∧
      q'.toList = before ++ after ∧ (∀ x ∈ before, ![2, 1, 1] p < ![2, 1, 1] x) ∧
      ∀ x ∈ after, ![2, 1, 1] p ≤ ![2, 1, 1] x) ∧
    ∃ q' : QueueT (Fin 3), rawRun ![2, 1, 1] QueueT.new.raw
      [.enqueue 1, .enqueue 2, .dequeue, .dequeue, .dequeue] =
        some ([some 1, some 2, none], q'.raw) ∧ q'.toList = [] := by
  refine ⟨?_, ?_⟩
  · obtain ⟨before, p, after, q', hlist, hraw, hrest, -, hbefore, hafter⟩ :=
      (dequeue_stable ![2, 1, 1]).1 (enqueue (enqueue (enqueue .new 0) 1) 2) (by decide)
    exact ⟨before, p, after, q', hlist, hraw, hrest, hbefore, hafter⟩
  · exact (dequeue_stable ![2, 1, 1]).2 1 _ QueueT.new (fun x hx => by simp [QueueT.toList_new] at hx)
      ⟨rfl, by decide, rfl, by decide, trivial⟩

end OsSim.Sched
