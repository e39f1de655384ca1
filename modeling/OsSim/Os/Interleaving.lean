import OsSim.Mem.Private
import OsSim.Os.Paged

/-!
# What the programs see of the simulation

The scheduler, the timer and the loader decide only whose instruction is next: in
programs without system call 101, and with an instruction as one step, each step
of the simulation is one instruction of one program or none. On the paged memory
a program then cannot tell that the others run. If every program runs alone on a
heap of its own, RAM has frames for all heaps and the frame numbers fit into an
entry, no access is ever undefined, and every process is answered and finds its
heap as it does alone, whatever the interleaving.
-/

namespace OsSim.Os
open OsSim.Base OsSim.Sched OsSim.Mem

/-! ### One instruction or none -/

section Turn
variable {σ : Type} {cfg : Config} {eff : Effects σ}

theorem holds_of_runsNow {s : OsState σ} {th : Thread} {i : ℕ} (h : runsNow s th = some i) :
    ∃ c, th = .cpu c ∧ Holds s c i := by
  cases th with
  | cpu c =>
    rw [runsNow] at h
    split_ifs at h with hpc
    exact ⟨c, rfl, h, by simp [hpc.2]⟩
  | timer => simp [runsNow] at h
  | ld => simp [runsNow] at h

/-- No program issues system call 101. -/
def NoKillall (cfg : Config) : Prop :=
  ∀ i < cfg.numProcesses, ∀ ins ∈ cfg.text i, ins.isKillall = false

/-- The instruction that the next step of the thread executes. -/
def issuesNow (cfg : Config) (s : OsState σ) (th : Thread) : Option (ℕ × Inst) :=
  (runsNow s th).bind fun i => ((cfg.text i)[s.pcOf i]?).map fun ins => (i, ins)

theorem issuesNow_eq {s : OsState σ} {th : Thread} {i : ℕ} {ins : Inst} :
    issuesNow cfg s th = some (i, ins) ↔
      runsNow s th = some i ∧ (cfg.text i)[s.pcOf i]? = some ins := by
  simp only [issuesNow, Option.bind_eq_some_iff, Option.map_eq_some_iff, Prod.mk.injEq]
  constructor
  · intro h
    obtain ⟨j, hj, ins', hins, rfl, rfl⟩ := h
    exact ⟨hj, hins⟩
  · intro h
    exact ⟨i, h.1, ins, h.2, rfl, rfl⟩

theorem mem_runsNow {s t : OsState σ} {th : Thread} (h : OsStep cfg eff s th t) :
    t.mem = (runsNow s th).elim s.mem fun i => (run cfg eff s i).mem := by
  cases h with
  | timer => rfl
  | ld hld => cases hld <;> rfl
  | cpu hc hcpu =>
    cases hcpu with
    | wake hb hw => simp [runsNow, hb]
    | @exec i timeLeft hrun hpc hproc => simp [runsNow, hrun, hpc, hproc, OsState.setCpu]
    | fetchIdle hrun hpc | fetchFinish hrun hpc | fetchPut hrun hpc =>
      simp [runsNow, hpc, fetch, OsState.setCpu]
    | put hrun hpc | keep hrun hpc | slot hrun hpc | detach hrun hpc =>
      simp [runsNow, hpc, OsState.setCpu]
    | exit hrun hpc hproc | skip hrun hpc hproc => simp [runsNow, hproc, OsState.setCpu]

/-- A step executes the instruction of one program, or no program sees it. -/
theorem osStep_turn (hno : NoKillall cfg) {s t : OsState σ} {th : Thread} (hc : Control cfg s)
    (hx : Exclusive cfg s) (hstep : OsStep cfg eff s th t) :
    (∃ i ins, issuesNow cfg s th = some (i, ins) ∧ i < cfg.numProcesses ∧
      t.pcOf = Function.update s.pcOf i (s.pcOf i + 1) ∧ t.mem = eff.memory i ins s.mem) ∨
    issuesNow cfg s th = none ∧ t.pcOf = s.pcOf ∧ t.mem = s.mem := by
  have hpcs := pcOf_osStep hstep
  have hmem := mem_runsNow hstep
  cases hrun : runsNow s th with
  | none =>
    rw [hrun] at hpcs hmem
    exact Or.inr ⟨by rw [issuesNow, hrun]; rfl, hpcs, hmem⟩
  | some i =>
    rw [hrun] at hpcs hmem
    dsimp only [Option.elim_some] at hpcs hmem
    rw [run_pcOf] at hpcs
    rw [run_mem] at hmem
    cases hins : (cfg.text i)[s.pcOf i]? with
    | none =>
      have hge : ¬s.pcOf i < cfg.size i := not_lt.mpr (List.getElem?_eq_none_iff.mp hins)
      rw [if_neg hge] at hpcs
      rw [hins] at hmem
      exact Or.inr ⟨by rw [issuesNow, hrun, Option.bind_some, hins]; rfl, hpcs, hmem⟩
    | some ins =>
      obtain ⟨c, -, hheld⟩ := holds_of_runsNow hrun
      have hi : i < cfg.numProcesses :=
        (hx.loaded i (Or.inr (Or.inl ⟨c, hheld⟩))).trans_le hc.next_le
      have hlt : s.pcOf i < cfg.size i := (List.getElem?_eq_some_iff.mp hins).1
      have hplain := hno i hi ins (List.mem_of_getElem? hins)
      rw [if_pos hlt] at hpcs
      simp only [hins, hplain, Bool.false_eq_true, if_false] at hmem
      exact Or.inl ⟨i, ins, issuesNow_eq.mpr ⟨hrun, hins⟩, hi, hpcs, hmem⟩

/-- The programs one instruction after the other, on a memory on which every
instruction is defined. -/
def Effects.issue (eff : Effects σ) (i : ℕ) (ins : Inst) (mem : σ) : Option (Unit × σ) :=
  some ((), eff.memory i ins mem)

/-- Whatever the threads do, the memory is the result of executing instructions one
after the other, each program in its own order from its first instruction on, and
the program counters say how far each has come. -/
theorem os_refines_interleaving (hno : NoKillall cfg) {mem : σ}
    {ok : OsState σ → Thread → Prop} {s : OsState σ} (h : OsReachable cfg eff mem ok s) :
    ∃ t : Turns ℕ σ Unit,
      Reachable (System.ofStep (Turns.start mem) (turn eff.issue cfg.text))
        (fun _ i => i < cfg.numProcesses) t ∧ t.shared = s.mem ∧ t.pos = s.pcOf := by
  have hinv : Reachable (System.ofStep (OsState.start cfg mem) (osStep cfg eff))
      (fun s th => ok s th ∧ Control cfg s ∧ Exclusive cfg s) s := by
    induction h with
    | init h0 => exact .init h0
    | step hs hok hnext ih =>
      exact .step ih ⟨hok, exclusive_reachable (onlyRemoves_of_no_killall eff hno) hs⟩ hnext
  apply hinv.simulates fun (s : OsState σ) (t : Turns ℕ σ Unit) => t.shared = s.mem ∧ t.pos = s.pcOf
  · intro s0 h0
    obtain rfl : s0 = OsState.start cfg mem := h0
    exact ⟨_, rfl, rfl, rfl⟩
  · intro s1 t th s2 hR hok hnext
    obtain ⟨hmem, hpos⟩ := hR
    rcases osStep_turn hno hok.2.1 hok.2.2 (osStep_step hnext) with
      ⟨i, ins, hexec, hi, hpcs', hmem'⟩ | ⟨-, hpcs', hmem'⟩
    · have hins := (issuesNow_eq.mp hexec).2
      refine Or.inr ⟨i, ⟨s2.mem, s2.pcOf, Function.update t.answers i (t.answers i ++ [()])⟩, hi, ?_,
        rfl, rfl⟩
      change turn eff.issue cfg.text t i = some _
      rw [turn, hpos, hins, Option.bind_some, Effects.issue, Option.map_some, hmem, hmem', hpcs']
    · exact Or.inl ⟨hmem.trans hmem'.symm, hpos.trans hpcs'.symm⟩

end Turn

/-- Two CPUs and two processes that write different bytes to the same region and
offset and read them back. -/
def Config.pair : Config where
  timeSlot := 1
  numCpus := 2
  numProcesses := 2
  startTime _ := 0
  prio _ := 0
  text i := [⟨.alloc, 300, 0, 0, 0⟩, ⟨.write, 7 + BitVec.ofNat 32 i, 0, 5, 0⟩, ⟨.read, 0, 5, 0, 0⟩]

theorem noKillall_pair : NoKillall .pair := by
  intro i _ ins hins
  simp only [Config.pair, List.mem_cons, List.not_mem_nil, or_false] at hins
  rcases hins with rfl | rfl | rfl <;> rfl

/-- One slot of two CPUs, which take turns. -/
def pairLabels : List Thread :=
  List.replicate 4 .ld ++ (List.replicate 4 [.cpu 0, .cpu 1]).flatten ++ List.replicate 8 .timer

/-- Every instruction is written down. -/
def noted : Effects (List (ℕ × Opcode)) where
  memory i ins mem := mem ++ [(i, ins.opcode)]
  killall _ _ sched mem := (sched, mem)

theorem os_refines_interleaving_pair :
    ∃ s : OsState (List (ℕ × Opcode)),
      s.mem = [(0, .alloc), (1, .alloc), (0, .write), (0, .read), (1, .write), (1, .read)] ∧
      ∃ t : Turns ℕ (List (ℕ × Opcode)) Unit,
        Reachable (System.ofStep (Turns.start []) (turn noted.issue Config.pair.text))
          (fun _ i => i < 2) t ∧ t.shared = s.mem ∧ t.pos = s.pcOf := by
  have hreach := reachable_tryAll (osStep .pair noted) (OsState.start .pair [])
    (List.replicate 10 pairLabels).flatten (.init rfl)
  exact ⟨_, by decide +kernel, os_refines_interleaving noKillall_pair hreach⟩

/-! ### The programs on the paged memory -/

/-- An instruction of process `i` on the shared memory: the answer of its call, none if
it makes no call. -/
def issue (i : ℕ) (ins : Inst) (sys : MemSys ℕ) : Option (Option MemRet × MemSys ℕ) :=
  match memOp ins with
  | none => some (none, sys)
  | some op => (memCall (sys.pcb i) op).map fun r => (some r.1, sys.put i r.2)

/-- An instruction of a process that is alone. -/
def issueAlone (ins : Inst) (heap : Heap) : Option (Option MemRet × Heap) :=
  match memOp ins with
  | none => some (none, heap)
  | some op => (heap.call op).map fun r => (some r.1, r.2)

/-- A program from its first instruction to its last on a heap of its own. -/
def runAlone (text : List Inst) : Option (List (Option MemRet) × Heap) :=
  solo issueAlone text .fresh

def answersAlone (text : List Inst) : List (Option MemRet) := (runAlone text).elim [] Prod.fst

def pagesAlone (text : List Inst) : ℕ := (runAlone text).elim 0 fun r => r.2.pages

/-- Every program runs alone, and RAM has a frame for every page of all of them. -/
structure RunAlone (cfg : Config) (ramSize : ℕ) : Prop where
  alone : ∀ i < cfg.numProcesses, (runAlone (cfg.text i)).isSome = true
  pages : ∑ i ∈ Finset.range cfg.numProcesses, pagesAlone (cfg.text i) ≤ ramSize / 256
  numbered : ramSize / 256 ≤ 8192

instance (cfg : Config) (ramSize : ℕ) : Decidable (RunAlone cfg ramSize) :=
  decidable_of_iff ((∀ i < cfg.numProcesses, (runAlone (cfg.text i)).isSome = true) ∧
      ∑ i ∈ Finset.range cfg.numProcesses, pagesAlone (cfg.text i) ≤ ramSize / 256 ∧
      ramSize / 256 ≤ 8192)
    ⟨fun h => ⟨h.1, h.2.1, h.2.2⟩, fun h => ⟨h.alone, h.pages, h.numbered⟩⟩

/-- The simulation, and what the calls of each process were answered. -/
structure Traced where
  os : OsState (Option Paged)
  answers : ℕ → List (Option MemRet)

/-- What the next step of the thread is answered by the memory. -/
def answerNow (cfg : Config) (s : OsState (Option Paged)) (th : Thread) :
    Option (ℕ × Option MemRet) := do
  let (i, ins) ← issuesNow cfg s th
  let m ← s.mem
  let (answer, _) ← issue i ins m.sys
  some (i, answer)

def tracedStep (cfg : Config) (prog : ℕ → Program) (l : Traced) (th : Thread) : Option Traced :=
  (pagedStep cfg prog l.os th).map fun t =>
    { os := t
      answers := (answerNow cfg l.os th).elim l.answers fun r =>
        Function.update l.answers r.1 (l.answers r.1 ++ [r.2]) }

def TracedReachable (cfg : Config) (prog : ℕ → Program) (ramSize swapSize : ℕ) (l : Traced) : Prop :=
  Reachable (System.ofStep ⟨OsState.start cfg (some ⟨.start ramSize swapSize, []⟩), fun _ => []⟩
    (tracedStep cfg prog)) (fun _ _ => True) l

/-- The answers and the heap of process `i` are those of the program `text` run alone. -/
def AsIfAlone (l : Traced) (i : ℕ) (text : List Inst) : Prop :=
  ∃ m heap, l.os.mem = some m ∧ runAlone text = some (l.answers i, heap) ∧
    HoldsHeap (m.sys.pcb i) heap

/-- What the memory answers and holds, at every place of every program, and what it
will do next. -/
structure Isolated (cfg : Config) (prog : ℕ → Program) (l : Traced) : Prop where
  answers : ∀ i < cfg.numProcesses,
    l.answers i = (answersAlone (cfg.text i)).take (l.os.pcOf i)
  so_far : ∀ i < cfg.numProcesses, AsIfAlone l i ((cfg.text i).take (l.os.pcOf i))
  finished : ∀ i, l.os.freed i = true → AsIfAlone l i (cfg.text i)
  defined : ∀ th t, osStep cfg (pagedEffects cfg prog) l.os th = some t → t.mem.isSome = true

section Isolation
variable {cfg : Config} {prog : ℕ → Program} {ramSize swapSize : ℕ}

theorem issueAlone_pages {ins : Inst} {heap heap' : Heap} {answer : Option MemRet}
    (h : issueAlone ins heap = some (answer, heap')) : heap.pages ≤ heap'.pages := by
  rw [issueAlone] at h
  cases hop : memOp ins with
  | none =>
    rw [hop] at h
    exact (Prod.mk.inj (Option.some.inj h)).2 ▸ le_rfl
  | some op =>
    rw [hop] at h
    obtain ⟨⟨ret, next⟩, hcall, heq⟩ := Option.map_eq_some_iff.mp h
    obtain ⟨-, rfl⟩ := Prod.mk.inj heq
    exact Heap.call_pages hcall

/-- An instruction that a process executes alone, it executes on the shared memory. -/
theorem issue_alone {n ram : ℕ} : ServesAlone (fun i => i < n) issue issueAlone (HeapsFit n ram)
    (OwnHeaps n ram) := by
  intro sys heaps i ins answer heap' hi hheaps halone hfit
  rw [issueAlone] at halone
  rw [issue]
  cases hop : memOp ins with
  | none =>
    rw [hop] at halone
    obtain ⟨rfl, rfl⟩ := Prod.mk.inj (Option.some.inj halone)
    rw [Function.update_eq_self]
    exact ⟨sys, rfl, hheaps⟩
  | some op =>
    rw [hop] at halone
    obtain ⟨⟨ret, next⟩, hcall, heq⟩ := Option.map_eq_some_iff.mp halone
    obtain ⟨rfl, rfl⟩ := Prod.mk.inj heq
    obtain ⟨proc, hmem, hput⟩ := hheaps.call hi hcall hfit
    exact ⟨sys.put i proc, by dsimp only; rw [hmem]; rfl, hput⟩

theorem pages_le_alone {text : List Inst} (halone : (runAlone text).isSome = true) {k : ℕ}
    {answers : List (Option MemRet)} {heap : Heap}
    (h : solo issueAlone (text.take k) .fresh = some (answers, heap)) :
    heap.pages ≤ pagesAlone text := by
  obtain ⟨⟨all, last⟩, hall⟩ := Option.isSome_iff_exists.mp halone
  rw [pagesAlone, hall, Option.elim_some]
  rw [runAlone, ← List.take_append_drop k text] at hall
  obtain ⟨first, mid, rest, hfirst, hrest, -⟩ := solo_split hall
  obtain ⟨-, rfl⟩ := Prod.mk.inj (Option.some.inj (h.symm.trans hfirst))
  exact solo_invariant (fun a b : Heap => a.pages ≤ b.pages) (fun _ => le_rfl) le_trans
    issueAlone_pages hrest

theorem heapsFit_alone (h : RunAlone cfg ramSize) {pos : ℕ → ℕ}
    {answers : ℕ → List (Option MemRet)} {heaps : ℕ → Heap}
    (halone : AsAlone issueAlone cfg.text (fun _ => .fresh) pos answers heaps) :
    HeapsFit cfg.numProcesses (ramSize / 256) heaps := by
  apply le_trans _ h.pages
  apply Finset.sum_le_sum
  intro i hi
  exact pages_le_alone (h.alone i (Finset.mem_range.mp hi)) (halone i)

theorem pagedEffects_memory (i : ℕ) (ins : Inst) (sys : MemSys ℕ) (gone : List ℕ) :
    (pagedEffects cfg prog).memory i ins (some ⟨sys, gone⟩) =
      (issue i ins sys).map fun r => ⟨r.2, gone⟩ := by
  simp only [pagedEffects, killEffects, pagedMemory, Option.bind_some, issue]
  cases memOp ins with
  | none => rfl
  | some op => simp only [memStep, Option.map_map]; rfl

theorem TracedReachable.os {l : Traced} (h : TracedReachable cfg prog ramSize swapSize l) :
    OsReachable cfg (pagedEffects cfg prog) (some ⟨.start ramSize swapSize, []⟩)
      (fun _ _ => True) l.os := by
  induction h with
  | init h0 =>
    obtain rfl := h0
    exact .init rfl
  | step _ _ hnext ih =>
    obtain ⟨t, ht, rfl⟩ := Option.map_eq_some_iff.mp hnext
    exact .step ih trivial (Option.filter_eq_some_iff.mp ht).1

/-- The simulation and the interleaving of its programs at the same place. -/
structure AtTurn (l : Traced) (t : Turns ℕ (MemSys ℕ) (Option MemRet)) : Prop where
  mem : l.os.mem = some ⟨t.shared, []⟩
  pos : t.pos = l.os.pcOf
  answers : t.answers = l.answers

theorem answerNow_eq {s : OsState (Option Paged)} {th : Thread} {sys : MemSys ℕ} {gone : List ℕ}
    (hmem : s.mem = some ⟨sys, gone⟩) : answerNow cfg s th =
      (issuesNow cfg s th).bind fun r => (issue r.1 r.2 sys).map fun a => (r.1, a.1) := by
  rw [answerNow, hmem]
  cases issuesNow cfg s th with
  | none => rfl
  | some r =>
    simp only [Option.bind_eq_bind, Option.bind_some, Option.map_eq_bind]
    rfl

theorem atTurn_step (hno : NoKillall cfg) {l l' : Traced} {t : Turns ℕ (MemSys ℕ) (Option MemRet)}
    {th : Thread} (hc : Control cfg l.os) (hx : Exclusive cfg l.os) (h : AtTurn l t)
    (hnext : tracedStep cfg prog l th = some l') :
    AtTurn l' t ∨ ∃ i t', i < cfg.numProcesses ∧ turn issue cfg.text t i = some t' ∧ AtTurn l' t' := by
  obtain ⟨s', hpaged, rfl⟩ := Option.map_eq_some_iff.mp hnext
  obtain ⟨hos, hdefined⟩ := Option.filter_eq_some_iff.mp hpaged
  rcases osStep_turn hno hc hx (osStep_step hos) with
    ⟨i, ins, hissue, hi, hpcs, hmem⟩ | ⟨hissue, hpcs, hmem⟩
  · have hins := (issuesNow_eq.mp hissue).2
    rw [h.mem, pagedEffects_memory] at hmem
    cases hcall : issue i ins t.shared with
    | none => simp [hmem, hcall] at hdefined
    | some r =>
      obtain ⟨answer, sys⟩ := r
      have hanswer : answerNow cfg l.os th = some (i, answer) := by
        rw [answerNow_eq h.mem, hissue, Option.bind_some, hcall, Option.map_some]
      rw [hcall] at hmem
      refine Or.inr ⟨i, ⟨sys, s'.pcOf, Function.update t.answers i (t.answers i ++ [answer])⟩, hi,
        ?_, hmem, rfl, ?_⟩
      · rw [turn, h.pos, hins, Option.bind_some, hcall, Option.map_some, hpcs]
      · rw [hanswer, h.answers]
        rfl
  · have hanswer : answerNow cfg l.os th = none := by
      rw [answerNow_eq h.mem, hissue]
      rfl
    refine Or.inl ⟨hmem.trans h.mem, h.pos.trans hpcs.symm, ?_⟩
    rw [hanswer, h.answers]
    rfl

theorem atTurn_reachable (hno : NoKillall cfg) {l : Traced}
    (h : TracedReachable cfg prog ramSize swapSize l) :
    ∃ t, Reachable (System.ofStep (Turns.start (.start ramSize swapSize)) (turn issue cfg.text))
      (fun _ i => i < cfg.numProcesses) t ∧ AtTurn l t := by
  induction h with
  | init h0 =>
    obtain rfl := h0
    exact ⟨_, .init rfl, rfl, rfl, rfl⟩
  | step hl _ hnext ih =>
    obtain ⟨t, ht, hat⟩ := ih
    obtain ⟨hc, hx⟩ := exclusive_reachable (onlyRemoves_of_no_killall _ hno) (TracedReachable.os hl)
    rcases atTurn_step hno hc hx hat hnext with hsame | ⟨i, t', hi, hturn, hat'⟩
    · exact ⟨t, ht, hsame⟩
    · exact ⟨t', .step ht hi hturn, hat'⟩

theorem take_answersAlone {text : List Inst} (halone : (runAlone text).isSome = true) {k : ℕ}
    {answers : List (Option MemRet)} {heap : Heap}
    (h : solo issueAlone (text.take k) .fresh = some (answers, heap)) :
    answers = (answersAlone text).take k := by
  obtain ⟨⟨all, last⟩, hall⟩ := Option.isSome_iff_exists.mp halone
  rw [answersAlone, hall, Option.elim_some]
  rw [runAlone] at hall
  by_cases hk : k ≤ text.length
  · obtain ⟨mid, hmid⟩ := solo_take hall hk
    exact (Prod.mk.inj (Option.some.inj (h.symm.trans hmid))).1
  · rw [List.take_of_length_le (by omega)] at h
    have hlen : all.length = text.length := solo_length hall
    rw [List.take_of_length_le (show all.length ≤ k by omega)]
    exact (Prod.mk.inj (Option.some.inj (h.symm.trans hall))).1

/-- The shared memory holds the heaps that the programs have alone at their program
counters. -/
theorem heaps_reachable (hno : NoKillall cfg) (h : RunAlone cfg ramSize) {l : Traced}
    (hl : TracedReachable cfg prog ramSize swapSize l) : ∃ t heaps, AtTurn l t ∧
      OwnHeaps cfg.numProcesses (ramSize / 256) t.shared heaps ∧
      AsAlone issueAlone cfg.text (fun _ => .fresh) t.pos t.answers heaps := by
  obtain ⟨t, ht, hat⟩ := atTurn_reachable hno hl
  obtain ⟨heaps, hheaps, halone⟩ := turns_alone issue_alone (fun _ _ _ => heapsFit_alone h) h.alone
    (ownHeaps_start cfg.numProcesses swapSize h.numbered) ht
  exact ⟨t, heaps, hat, hheaps, halone⟩

theorem asIfAlone (hno : NoKillall cfg) (h : RunAlone cfg ramSize) {l : Traced}
    (hl : TracedReachable cfg prog ramSize swapSize l) (i : ℕ) :
    AsIfAlone l i ((cfg.text i).take (l.os.pcOf i)) := by
  obtain ⟨t, heaps, hat, hheaps, halone⟩ := heaps_reachable hno h hl
  have hsolo := halone i
  rw [hat.pos, hat.answers] at hsolo
  exact ⟨_, heaps i, hat.mem, hsolo, hheaps.holdsHeap i⟩

theorem answers_alone (hno : NoKillall cfg) (h : RunAlone cfg ramSize) {l : Traced}
    (hl : TracedReachable cfg prog ramSize swapSize l) {i : ℕ} (hi : i < cfg.numProcesses) :
    l.answers i = (answersAlone (cfg.text i)).take (l.os.pcOf i) := by
  obtain ⟨m, heap, -, hsolo, -⟩ := asIfAlone hno h hl i
  exact take_answersAlone (h.alone i hi) hsolo

theorem freed_at_end (hno : NoKillall cfg) {l : Traced}
    (hl : TracedReachable cfg prog ramSize swapSize l) {i : ℕ} (hi : l.os.freed i = true) :
    i < cfg.numProcesses ∧ l.os.pcOf i = cfg.size i := by
  obtain ⟨hc, hx⟩ := exclusive_reachable (onlyRemoves_of_no_killall _ hno) (TracedReachable.os hl)
  exact ⟨(hx.loaded i (Or.inr (Or.inr hi))).trans_le hc.next_le, hx.freed_size i hi⟩

/-- The next instruction of every thread is defined on the memory. -/
theorem defined_alone (hno : NoKillall cfg) (h : RunAlone cfg ramSize) {l : Traced}
    (hl : TracedReachable cfg prog ramSize swapSize l) (th : Thread) {s' : OsState (Option Paged)}
    (hstep : osStep cfg (pagedEffects cfg prog) l.os th = some s') : s'.mem.isSome = true := by
  obtain ⟨hc, hx⟩ := exclusive_reachable (onlyRemoves_of_no_killall _ hno) (TracedReachable.os hl)
  obtain ⟨t, heaps, hat, hheaps, halone⟩ := heaps_reachable hno h hl
  rcases osStep_turn hno hc hx (osStep_step hstep) with ⟨i, ins, hissue, hi, -, hmem⟩ | ⟨-, -, hmem⟩
  · have hins := (issuesNow_eq.mp hissue).2
    rw [← hat.pos] at hins
    obtain ⟨t', -, hturn, -⟩ := turn_alone issue_alone (fun _ _ _ => heapsFit_alone h) h.alone
      hheaps halone hi (List.getElem?_eq_some_iff.mp hins).1
    rw [turn, hins, Option.bind_some] at hturn
    obtain ⟨r, hcall, -⟩ := Option.map_eq_some_iff.mp hturn
    rw [hmem, hat.mem, pagedEffects_memory, hcall]
    rfl
  · rw [hmem, hat.mem]
    rfl

/-- Every call of every process is answered as when the process runs alone and leaves
it the same heap, whatever the other processes, the CPUs, the loader and the timer do,
and no access is ever undefined. -/
theorem programs_isolated (hno : NoKillall cfg) (h : RunAlone cfg ramSize) {l : Traced}
    (hl : TracedReachable cfg prog ramSize swapSize l) : Isolated cfg prog l := by
  constructor
  · intro i hi
    exact answers_alone hno h hl hi
  · intro i hi
    exact asIfAlone hno h hl i
  · intro i hfreed
    obtain ⟨hi, hend⟩ := freed_at_end hno hl hfreed
    have hlast := asIfAlone hno h hl i
    rwa [hend, Config.size, List.take_length] at hlast
  · intro th s' hstep
    exact defined_alone hno h hl th hstep

end Isolation

def readBack (answers : List (Option MemRet)) : List (BitVec 32) :=
  answers.filterMap fun a => a.bind MemRet.destination

/-- The two programs run to their ends, on a RAM of four frames. -/
def pairRun : Traced :=
  tryAll (tracedStep .pair noPaths) ⟨OsState.start .pair (some ⟨.start 1024 256, []⟩), fun _ => []⟩
    (List.replicate 10 pairLabels).flatten

theorem pairRun_reachable : TracedReachable .pair noPaths 1024 256 pairRun :=
  reachable_tryAll _ _ _ (.init rfl)

theorem pairRun_ends : pairRun.os.freed 0 = true ∧ pairRun.os.freed 1 = true ∧
    readBack (pairRun.answers 0) = [7] ∧ readBack (pairRun.answers 1) = [8] := by
  decide +kernel

theorem programs_isolated_pair :
    ∃ l : Traced, l.os.freed 0 = true ∧ l.os.freed 1 = true ∧ readBack (l.answers 0) = [7] ∧
      readBack (l.answers 1) = [8] ∧ Isolated .pair noPaths l := by
  obtain ⟨hfreed0, hfreed1, h0, h1⟩ := pairRun_ends
  exact ⟨pairRun, hfreed0, hfreed1, h0, h1,
    programs_isolated noKillall_pair (by decide +kernel) pairRun_reachable⟩

end OsSim.Os
