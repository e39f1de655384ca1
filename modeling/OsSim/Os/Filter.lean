import OsSim.Os.Killall

/-!
# The queues after system call 101 (sys_killall.c:137-211)

Each queue is emptied through `dequeue`, which takes the least `prio` first, into
a bounded temporary queue and filled again the same way. A ready queue whose
processes all have its own priority is a plain FIFO under `dequeue`, so the two
loops keep the order; `running_list` mixes priorities and only its contents are
kept.
-/

namespace OsSim.Os
open OsSim.Base OsSim.Sched OsSim.Mem

variable {P : Type}

section Loops
variable (prio : P → ℕ) (named : P → Bool) {k : ℕ}

theorem dequeue_head {q : QueueT P} (hk : ∀ x ∈ q.toList, prio x = k) {n : ℕ}
    (hn : n + 1 = q.toList.length) :
    ∃ proc left, dequeue prio q = (some proc, left) ∧ q.toList = proc :: left.toList ∧
      (∀ x ∈ left.toList, prio x = k) ∧ n = left.toList.length := by
  cases hq : q.toList with
  | nil => simp [hq] at hn
  | cons proc rest =>
    obtain ⟨hproc, hrest⟩ := dequeue_uniform prio q k hk hq
    rw [hq, List.length_cons] at hn
    refine ⟨proc, (dequeue prio q).2, Prod.ext hproc rfl, by rw [hrest], ?_, ?_⟩
    · intro x hx
      exact hk x (by rw [hq, ← hrest]; exact List.mem_cons_of_mem _ hx)
    · rw [hrest]
      omega

/-- The first loop on a queue of one priority keeps the order on both sides. -/
theorem killLoop_filter (n : ℕ) {q temp : QueueT P} (hk : ∀ x ∈ q.toList, prio x = k)
    (hn : n = q.toList.length) (hroom : temp.toList.length + n ≤ maxQueueSize) :
    (killLoop prio named n q temp).1.toList = [] ∧
      (killLoop prio named n q temp).2.1.toList =
        temp.toList ++ q.toList.filter (fun proc => !named proc) ∧
      (killLoop prio named n q temp).2.2 = q.toList.filter named := by
  induction n generalizing q temp with
  | zero =>
    have hnil := List.length_eq_zero_iff.mp hn.symm
    simp [killLoop, hnil]
  | succ n ih =>
    obtain ⟨proc, left, hdeq, hq, hkeep, hlen⟩ := dequeue_head prio hk hn
    rw [killLoop, hdeq, hq]
    dsimp only
    cases hp : named proc with
    | true =>
      obtain ⟨hempty, htemp, hterm⟩ := @ih left temp hkeep hlen (by omega)
      rw [if_pos rfl]
      refine ⟨hempty, ?_, ?_⟩
      · rw [htemp, List.filter_cons_of_neg (by simp [hp])]
      · rw [hterm, List.filter_cons_of_pos hp]
    | false =>
      have henq := toList_enqueue_room (show temp.toList.length < maxQueueSize by omega) proc
      obtain ⟨hempty, htemp, hterm⟩ := @ih left (enqueue temp proc) hkeep hlen (by
        rw [henq, List.length_append, List.length_singleton]
        omega)
      rw [if_neg Bool.false_ne_true]
      refine ⟨hempty, ?_, ?_⟩
      · rw [htemp, henq, List.filter_cons_of_pos (by simp [hp]), List.append_assoc]
        rfl
      · rw [hterm, List.filter_cons_of_neg (by simp [hp])]

/-- The second loop appends the temporary queue in its order. -/
theorem moveLoop_append (n : ℕ) {temp q : QueueT P} (hk : ∀ x ∈ temp.toList, prio x = k)
    (hn : n = temp.toList.length) (hroom : q.toList.length + n ≤ maxQueueSize) :
    (moveLoop prio n temp q).toList = q.toList ++ temp.toList := by
  induction n generalizing temp q with
  | zero =>
    have hnil := List.length_eq_zero_iff.mp hn.symm
    simp [moveLoop, hnil]
  | succ n ih =>
    obtain ⟨proc, left, hdeq, htemp, hkeep, hlen⟩ := dequeue_head prio hk hn
    have henq := toList_enqueue_room (show q.toList.length < maxQueueSize by omega) proc
    rw [moveLoop, hdeq, htemp]
    dsimp only
    rw [@ih left (enqueue q proc) hkeep hlen (by
      rw [henq, List.length_append, List.length_singleton]
      omega), henq, List.append_assoc]
    rfl

theorem killQueue_filter {q : QueueT P} (hk : ∀ x ∈ q.toList, prio x = k) :
    (killQueue prio named q).1.toList = q.toList.filter (fun proc => !named proc) ∧
      (killQueue prio named q).2 = q.toList.filter named := by
  have hsize : q.size = q.toList.length := q.length_toList.symm
  have hle : q.toList.length ≤ maxQueueSize := hsize ▸ q.size_le
  obtain ⟨hempty, htemp, hterm⟩ := @killLoop_filter P prio named k q.size q .new hk hsize (by
    rw [QueueT.toList_new, List.length_nil, hsize]
    omega)
  rw [QueueT.toList_new, List.nil_append] at htemp
  refine ⟨?_, hterm⟩
  have hkeep : ∀ x ∈ (killLoop prio named q.size q .new).2.1.toList, prio x = k := by
    intro x hx
    rw [htemp] at hx
    exact hk x (List.mem_of_mem_filter hx)
  unfold killQueue
  dsimp only
  rw [moveLoop_append prio _ hkeep (QueueT.length_toList _).symm (by
    rw [hempty, List.length_nil, Nat.zero_add]
    exact QueueT.size_le _), hempty, List.nil_append, htemp]

end Loops

/-- Whatever the memory holds and whatever live processes the queues, as long as every
ready queue holds its own priority only: a call whose region decodes to `name` takes the
processes stored under it out of every queue and leaves the others, in the ready queues
in their order. -/
theorem killall_filters_queues [DecidableEq P] {mem mem1 : MemSys P}
    (hmem : Reachable anySystem (fun _ _ => True) mem) (prio : P → ℕ) (prog : P → Program)
    {sched : SchedState P} (hprio : ∀ i < maxPrio, ∀ proc ∈ level sched i, prio proc = i)
    {caller : P} {memrg : BitVec 32} {name : List Byte}
    (hname : procName mem caller memrg = some (some name, mem1)) :
    ∃ rc sched' mem', sysKillall prio prog sched mem caller memrg = some (rc, sched', mem') ∧
      (∀ i < maxPrio, level sched' i =
        (level sched i).filter fun proc => (prog proc).storedPath ≠ name) ∧
      sched'.runningList.toList.Perm
        (sched.runningList.toList.filter fun proc => (prog proc).storedPath ≠ name) ∧
      sched'.currPrio = sched.currPrio ∧ sched'.currSlot = sched.currSlot := by
  obtain ⟨mem', -, hcall⟩ := sysKillall_of_name prio prog sched (anySystem_heapIs hmem) hname rfl
  have hkeep : (fun proc => !decide ((prog proc).storedPath = name)) =
      fun proc => decide ((prog proc).storedPath ≠ name) := by
    funext proc
    simp
  refine ⟨_, _, mem', hcall, fun i hi => ?_, ?_, rfl, rfl⟩
  · have hlevel := (killQueue_filter prio (fun proc => (prog proc).storedPath = name)
      (hprio i hi)).1
    rw [hkeep] at hlevel
    simp only [level, killSched, if_pos hi]
    exact hlevel
  · have hrunning := (killQueue_perm prio (fun proc => (prog proc).storedPath = name)
      sched.runningList).1
    rw [hkeep] at hrunning
    exact hrunning

theorem killall_filters_one_queued :
    ∃ (mem mem1 : MemSys ℕ) (rc : ℤ) (sched' : SchedState ℕ) (mem' : MemSys ℕ),
      procName mem 0 1 = some (some (ascii "input/proc/s1"), mem1) ∧
      sysKillall (fun _ => 0) (twoPrograms "input/proc/s1") oneQueued mem 0 1 =
        some (rc, sched', mem') ∧
      (∀ i < maxPrio, level sched' i = (level oneQueued i).filter fun proc =>
        (twoPrograms "input/proc/s1" proc).storedPath ≠ ascii "input/proc/s1") ∧
      sched'.runningList.toList.Perm (oneQueued.runningList.toList.filter fun proc =>
        (twoPrograms "input/proc/s1" proc).storedPath ≠ ascii "input/proc/s1") ∧
      sched'.currPrio = oneQueued.currPrio ∧ sched'.currSlot = oneQueued.currSlot := by
  obtain ⟨mem, hmem, hp⟩ := exists_reachable_of_runAll memStep (fun _ _ => True)
    (MemSys.start 1024 1024) (writesName "input/proc/s1")
    (fun mem => decide ((procName mem 0 1).map Prod.fst = some (some (ascii "input/proc/s1"))))
    (by decide +kernel)
  obtain ⟨⟨name, mem1⟩, hname, heq⟩ := Option.map_eq_some_iff.mp (of_decide_eq_true hp)
  obtain rfl : name = some (ascii "input/proc/s1") := heq
  have hprio : ∀ i < maxPrio, ∀ proc ∈ level oneQueued i, (fun _ => 0 : ℕ → ℕ) proc = i := by
    intro i hi proc hproc
    by_contra hne
    have hempty : level oneQueued i = [] := by
      simp only [oneQueued, addProc_eq_putProc, level_putProc]
      rw [Function.update_of_ne (Ne.symm hne)]
      rfl
    simp [hempty] at hproc
  obtain ⟨rc, sched', mem', hcall, hlevels⟩ := killall_filters_queues (MemReachable.any hmem)
    (fun _ => 0) (twoPrograms "input/proc/s1") hprio hname
  exact ⟨mem, mem1, rc, sched', mem', hname, hcall, hlevels⟩

end OsSim.Os
