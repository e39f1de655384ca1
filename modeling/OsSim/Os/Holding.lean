import OsSim.Os.Finish

/-!
# Who holds a process

`Exclusive` is what the loops keep of the process pointers whatever the
priorities are and whether or not a queue was full: a process is at one
position of one ready queue, or in the `proc` variable of one CPU, or in
neither, and a freed one is in neither. System call 101 may only take
processes out of the ready queues.
-/

namespace OsSim.Os
open OsSim.Base OsSim.Sched

variable {σ : Type}

structure Exclusive (cfg : Config) (s : OsState σ) : Prop where
  sched : SchedInv cfg.prio s.sched
  waiting_le : ∀ i, waiting s.sched i ≤ 1
  held_alone : ∀ c i, Holds s c i → waiting s.sched i = 0
  one_holder : ∀ c e i, Holds s c i → Holds s e i → c = e
  loaded : ∀ i, (0 < waiting s.sched i ∨ (∃ c, Holds s c i) ∨ s.freed i = true) → i < s.next
  freed_out : ∀ i, s.freed i = true → waiting s.sched i = 0 ∧ ∀ c, ¬Holds s c i
  freed_size : ∀ i, s.freed i = true → s.pcOf i = cfg.size i

/-- Every system call 101 a loaded program issues leaves the queues well formed
and adds nothing to them. -/
def OnlyRemoves (cfg : Config) (eff : Effects σ) : Prop :=
  ∀ i < cfg.numProcesses, ∀ ins ∈ cfg.text i, ins.isKillall = true → ∀ sched mem,
    SchedInv cfg.prio sched → SchedInv cfg.prio (eff.killall i ins sched mem).1 ∧
      ∀ j, waiting (eff.killall i ins sched mem).1 j ≤ waiting sched j

theorem onlyRemoves_of_no_killall {cfg : Config} (eff : Effects σ)
    (h : ∀ i < cfg.numProcesses, ∀ ins ∈ cfg.text i, ins.isKillall = false) :
    OnlyRemoves cfg eff := by
  intro i hi ins hins hkill
  rw [h i hi ins hins] at hkill
  exact absurd hkill (by simp)

/-! ### The ready queues -/

theorem waiting_initScheduler (i : ℕ) : waiting (initScheduler : SchedState ℕ) i = 0 := by
  simp [waiting, level, initScheduler, QueueT.toList_new]

theorem waiting_putProc_le (prio : ℕ → ℕ) (s : SchedState ℕ) (p x : ℕ) :
    waiting (putProc prio s p) x ≤ waiting s x + [p].count x := by
  by_cases hp : prio p < maxPrio
  · rw [waiting_putProc hp]
    split_ifs <;> omega
  · have hlevel : ∀ l ∈ Finset.range maxPrio,
        (level (putProc prio s p) l).count x = (level s l).count x := by
      intro l hl
      have hne : l ≠ prio p := by
        have := Finset.mem_range.mp hl
        omega
      rw [level_putProc, Function.update_of_ne hne]
    rw [waiting, Finset.sum_congr rfl hlevel]
    exact Nat.le_add_right _ _

theorem waiting_putProc_other (prio : ℕ → ℕ) (s : SchedState ℕ) {i j : ℕ} (h : j ≠ i) :
    waiting (putProc prio s i) j ≤ waiting s j := by
  have hle := waiting_putProc_le prio s i j
  rwa [List.count_singleton, if_neg (by simpa using h.symm), Nat.add_zero] at hle

theorem waiting_getProc {prio : ℕ → ℕ} {s : SchedState ℕ} (hs : SchedInv prio s) (x : ℕ) :
    waiting (getProc prio s).2 x + (getProc prio s).1.toList.count x = waiting s x := by
  have hstep := getProc_step prio s hs
  rcases hr : (getProc prio s).1 with - | p
  · rw [hr] at hstep
    simpa using hstep.waiting_none hs x
  · rw [hr] at hstep
    simpa using hstep.waiting_some hs.curr_lt x

/-! ### The steps -/

theorem exclusive_start (cfg : Config) (mem : σ) : Exclusive cfg (OsState.start cfg mem) where
  sched := schedInv_init _
  waiting_le i := by simp [OsState.start, waiting_initScheduler]
  held_alone c i h := by simp [Holds, OsState.start] at h
  one_holder c e i h := by simp [Holds, OsState.start] at h
  loaded i h := by simp [Holds, OsState.start, waiting_initScheduler] at h
  freed_out i h := by simp [OsState.start] at h
  freed_size i h := by simp [OsState.start] at h

/-- Steps that move no process, except out of the ready queues. -/
theorem Exclusive.frame {cfg : Config} {s t : OsState σ} (h : Exclusive cfg s)
    (hsched : SchedInv cfg.prio t.sched) (hwait : ∀ i, waiting t.sched i ≤ waiting s.sched i)
    (hnext : t.next = s.next) (hfreed : t.freed = s.freed)
    (hpcs : ∀ i, s.pcOf i = cfg.size i → t.pcOf i = cfg.size i)
    (hholds : ∀ c i, Holds t c i ↔ Holds s c i) : Exclusive cfg t where
  sched := hsched
  waiting_le i := (hwait i).trans (h.waiting_le i)
  held_alone c i hh := Nat.le_zero.mp (h.held_alone c i ((hholds c i).mp hh) ▸ hwait i)
  one_holder c e i hc he := h.one_holder c e i ((hholds c i).mp hc) ((hholds e i).mp he)
  loaded i hi := by
    rw [hnext]
    rcases hi with hi | ⟨c, hc⟩ | hi
    · exact h.loaded i (Or.inl (hi.trans_le (hwait i)))
    · exact h.loaded i (Or.inr (Or.inl ⟨c, (hholds c i).mp hc⟩))
    · exact h.loaded i (Or.inr (Or.inr (hfreed ▸ hi)))
  freed_out i hi := by
    rw [hfreed] at hi
    obtain ⟨hw, hh⟩ := h.freed_out i hi
    exact ⟨Nat.le_zero.mp (hw ▸ hwait i), fun c hc => hh c ((hholds c i).mp hc)⟩
  freed_size i hi := hpcs i (h.freed_size i (hfreed ▸ hi))

theorem Exclusive.same {cfg : Config} {s t : OsState σ} (h : Exclusive cfg s)
    (hsched : t.sched = s.sched) (hnext : t.next = s.next) (hfreed : t.freed = s.freed)
    (hpcs : t.pcOf = s.pcOf) (hholds : ∀ c i, Holds t c i ↔ Holds s c i) : Exclusive cfg t :=
  h.frame (hsched ▸ h.sched) (fun _ => hsched ▸ le_rfl) hnext hfreed (fun _ hi => hpcs ▸ hi) hholds

theorem exclusive_fetch {cfg : Config} {s : OsState σ} (h : Exclusive cfg s) {c : ℕ}
    {pc : Option ℕ → CpuPc} (timeLeft : ℤ) (hpc : ∀ r, pc r ≠ .afterPut) :
    Exclusive cfg (fetch cfg s c pc timeLeft) := by
  have hget := waiting_getProc h.sched
  have hle : ∀ i, waiting (getProc cfg.prio s.sched).2 i ≤ waiting s.sched i := by
    intro i
    have := hget i
    omega
  -- the process answered was waiting, so nobody holds it and it waits no more
  have hgot : ∀ i, (getProc cfg.prio s.sched).1 = some i →
      waiting (getProc cfg.prio s.sched).2 i = 0 ∧ 0 < waiting s.sched i := by
    intro i hi
    have hi' := hget i
    have hone := h.waiting_le i
    rw [hi, Option.toList_some, List.count_singleton_self] at hi'
    omega
  have hfree : ∀ e i, Holds s e i → (getProc cfg.prio s.sched).1 ≠ some i := by
    intro e i hh hi
    have := (hgot i hi).2
    have := h.held_alone e i hh
    omega
  have hinv : SchedInv cfg.prio (getProc cfg.prio s.sched).2 :=
    (getProc_step cfg.prio s.sched h.sched).inv h.sched
  refine ⟨hinv, fun i => (hle i).trans (h.waiting_le i), ?_, ?_, ?_, ?_, h.freed_size⟩
  · intro e i hh
    rw [holds_fetch hpc] at hh
    split_ifs at hh
    · exact (hgot i hh).1
    · exact Nat.le_zero.mp (h.held_alone e i hh ▸ hle i)
  · intro e d i he hd
    rw [holds_fetch hpc] at he hd
    split_ifs at he hd with h1 h2 h2
    · exact h1.trans h2.symm
    · exact absurd he (hfree d i hd)
    · exact absurd hd (hfree e i he)
    · exact h.one_holder e d i he hd
  · intro i hi
    change i < s.next
    rcases hi with hi | ⟨e, he⟩ | hi
    · exact h.loaded i (Or.inl (lt_of_lt_of_le hi (hle i)))
    · rw [holds_fetch hpc] at he
      split_ifs at he
      · exact h.loaded i (Or.inl (hgot i he).2)
      · exact h.loaded i (Or.inr (Or.inl ⟨e, he⟩))
    · exact h.loaded i (Or.inr (Or.inr hi))
  · intro i hi
    obtain ⟨hw, hh⟩ := h.freed_out i hi
    refine ⟨Nat.le_zero.mp (hw ▸ hle i), fun e he => ?_⟩
    rw [holds_fetch hpc] at he
    split_ifs at he
    · have := (hgot i he).2
      omega
    · exact hh e he

/-- `free(proc)` of the finished process before the next one is fetched. -/
theorem exclusive_finish {cfg : Config} {s : OsState σ} (h : Exclusive cfg s) {c i : ℕ}
    (hh : Holds s c i) (hfin : s.pcOf i = cfg.size i) (timeLeft : ℤ) :
    Exclusive cfg (fetch cfg { s with freed := Function.update s.freed i true } c
      (fun _ => .recheck) timeLeft) := by
  have hpc : ∀ r : Option ℕ, (fun _ => CpuPc.recheck) r ≠ .afterPut := fun _ => by simp
  have hmid := exclusive_fetch h (c := c) timeLeft hpc
  have hget := waiting_getProc h.sched i
  have hzero := h.held_alone c i hh
  refine { hmid with
    loaded := fun j hj => ?_
    freed_out := fun j hj => ?_
    freed_size := fun j hj => ?_ }
  · rcases hj with hj | hj | hj
    · exact hmid.loaded j (Or.inl hj)
    · exact hmid.loaded j (Or.inr (Or.inl hj))
    · change Function.update s.freed i true j = true at hj
      by_cases hji : j = i
      · exact hji ▸ h.loaded i (Or.inr (Or.inl ⟨c, hh⟩))
      · rw [Function.update_of_ne hji] at hj
        exact h.loaded j (Or.inr (Or.inr hj))
  · change Function.update s.freed i true j = true at hj
    by_cases hji : j = i
    · subst hji
      refine ⟨?_, fun e he => ?_⟩
      · change waiting (getProc cfg.prio s.sched).2 j = 0
        omega
      · rw [holds_fetch hpc] at he
        split_ifs at he with hec
        · change (getProc cfg.prio s.sched).1 = some j at he
          rw [he, Option.toList_some, List.count_singleton_self] at hget
          omega
        · exact hec (h.one_holder e c j he hh)
    · rw [Function.update_of_ne hji] at hj
      exact hmid.freed_out j hj
  · change Function.update s.freed i true j = true at hj
    by_cases hji : j = i
    · exact hji ▸ hfin
    · rw [Function.update_of_ne hji] at hj
      exact h.freed_size j hj

theorem holds_put {s : OsState σ} {c : ℕ} {cpu : Cpu} (hpc : cpu.pc = .afterPut) (e i : ℕ) :
    Holds (s.setCpu c cpu) e i ↔ e ≠ c ∧ Holds s e i := by
  by_cases hec : e = c
  · subst hec
    simp [Holds, setCpu_self, hpc]
  · rw [Holds, setCpu_other _ _ hec]
    simp [hec, Holds]

theorem exclusive_put {cfg : Config} {s : OsState σ} (h : Exclusive cfg s) {c i : ℕ}
    (hh : Holds s c i) {cpu : Cpu} (hpc : cpu.pc = .afterPut) :
    Exclusive cfg ({ s with sched := putProc cfg.prio s.sched i }.setCpu c cpu) := by
  have hwait := waiting_putProc_le cfg.prio s.sched i
  have hother : ∀ j, j ≠ i → waiting (putProc cfg.prio s.sched i) j ≤ waiting s.sched j :=
    fun j hj => waiting_putProc_other cfg.prio s.sched hj
  have hzero := h.held_alone c i hh
  refine ⟨schedInv_putProc h.sched i, fun j => ?_, fun e j he => ?_, fun e d j he hd => ?_,
    fun j hj => ?_, fun j hj => ?_, h.freed_size⟩
  · change waiting (putProc cfg.prio s.sched i) j ≤ 1
    by_cases hj : j = i
    · subst hj
      have hle := hwait j
      rw [List.count_singleton_self] at hle
      omega
    · exact (hother j hj).trans (h.waiting_le j)
  · rw [holds_put hpc] at he
    have hj : j ≠ i := fun hji => he.1 (h.one_holder e c i (hji ▸ he.2) hh)
    exact Nat.le_zero.mp (h.held_alone e j he.2 ▸ hother j hj)
  · exact h.one_holder e d j ((holds_put hpc e j).mp he).2 ((holds_put hpc d j).mp hd).2
  · change j < s.next
    rcases hj with hj | ⟨e, he⟩ | hj
    · by_cases hji : j = i
      · exact hji ▸ h.loaded i (Or.inr (Or.inl ⟨c, hh⟩))
      · exact h.loaded j (Or.inl (lt_of_lt_of_le hj (hother j hji)))
    · exact h.loaded j (Or.inr (Or.inl ⟨e, ((holds_put hpc e j).mp he).2⟩))
    · exact h.loaded j (Or.inr (Or.inr hj))
  · obtain ⟨hw, hno⟩ := h.freed_out j hj
    have hji : j ≠ i := fun hji => hno c (hji ▸ hh)
    exact ⟨Nat.le_zero.mp (hw ▸ hother j hji), fun e he => hno e ((holds_put hpc e j).mp he).2⟩

theorem exclusive_add {cfg : Config} {s : OsState σ} (h : Exclusive cfg s) (ld : LdPc) :
    Exclusive cfg
      { s with sched := addProc cfg.prio s.sched s.next, next := s.next + 1, ld := ld } := by
  have hwait := waiting_putProc_le cfg.prio s.sched s.next
  have hnew : waiting s.sched s.next = 0 := by
    by_contra hne
    exact lt_irrefl _ (h.loaded s.next (Or.inl (Nat.pos_of_ne_zero hne)))
  have hother : ∀ j, j ≠ s.next → waiting (putProc cfg.prio s.sched s.next) j ≤
      waiting s.sched j := fun j hj => waiting_putProc_other cfg.prio s.sched hj
  have hheld : ∀ e j, Holds s e j → j ≠ s.next := fun e j he =>
    (h.loaded j (Or.inr (Or.inl ⟨e, he⟩))).ne
  refine ⟨schedInv_putProc h.sched s.next, fun j => ?_, fun e j he => ?_, h.one_holder,
    fun j hj => ?_, fun j hj => ?_, h.freed_size⟩
  · change waiting (putProc cfg.prio s.sched s.next) j ≤ 1
    by_cases hj : j = s.next
    · subst hj
      have hle := hwait s.next
      rw [List.count_singleton_self] at hle
      omega
    · exact (hother j hj).trans (h.waiting_le j)
  · exact Nat.le_zero.mp (h.held_alone e j he ▸ hother j (hheld e j he))
  · change j < s.next + 1
    by_cases hjn : j = s.next
    · exact hjn ▸ Nat.lt_succ_self _
    · rcases hj with hj | hj
      · exact Nat.lt_succ_of_lt (h.loaded j (Or.inl (lt_of_lt_of_le hj (hother j hjn))))
      · exact Nat.lt_succ_of_lt (h.loaded j (Or.inr hj))
  · have hlt := h.loaded j (Or.inr (Or.inr hj))
    obtain ⟨hw, hno⟩ := h.freed_out j hj
    exact ⟨Nat.le_zero.mp (hw ▸ hother j hlt.ne), hno⟩

theorem run_removes {cfg : Config} {eff : Effects σ} (hkill : OnlyRemoves cfg eff) {s : OsState σ}
    (hs : SchedInv cfg.prio s.sched) {i : ℕ} (hi : i < cfg.numProcesses) :
    ∃ pcs sched mem, run cfg eff s i = { s with pcOf := pcs, sched := sched, mem := mem } ∧
      SchedInv cfg.prio sched ∧ (∀ j, waiting sched j ≤ waiting s.sched j) ∧
      ∀ j, s.pcOf j = cfg.size j → pcs j = cfg.size j := by
  rw [run]
  split
  · exact ⟨s.pcOf, s.sched, s.mem, rfl, hs, fun _ => le_rfl, fun _ => id⟩
  · rename_i ins hins
    have hpcs : ∀ j, s.pcOf j = cfg.size j →
        Function.update s.pcOf i (s.pcOf i + 1) j = cfg.size j := by
      intro j hj
      have hlt : s.pcOf i < cfg.size i := (List.getElem?_eq_some_iff.mp hins).1
      have hji : j ≠ i := by rintro rfl; omega
      rw [Function.update_of_ne hji]
      exact hj
    split_ifs with hk
    · obtain ⟨hinv, hle⟩ := hkill i hi ins (List.mem_of_getElem? hins) hk s.sched s.mem hs
      exact ⟨_, _, _, rfl, hinv, hle, hpcs⟩
    · exact ⟨_, s.sched, _, rfl, hs, fun _ => le_rfl, hpcs⟩

theorem exclusive_cpu {cfg : Config} {eff : Effects σ} (hkill : OnlyRemoves cfg eff)
    {s t : OsState σ} {c : ℕ} (h : Exclusive cfg s) (hle : s.next ≤ cfg.numProcesses)
    (hmove : CpuMove cfg eff s c t) : Exclusive cfg t := by
  cases hmove with
  | idle hsched hnext hfreed hpcs hholds => exact h.same hsched hnext hfreed hpcs hholds
  | fetch pc timeLeft hpc hfree ht =>
    rw [ht]
    exact exclusive_fetch h timeLeft hpc
  | finish i hheld hfin ht =>
    rw [ht]
    exact exclusive_finish h hheld hfin 0
  | put i hheld hfin ht =>
    rw [ht]
    exact exclusive_put h hheld rfl
  | exec i cpu hheld ht hholds =>
    have hi : i < s.next := h.loaded i (Or.inr (Or.inl ⟨c, hheld⟩))
    obtain ⟨pcs, sched, mem, hr, hinv, hwait, hpcs⟩ :=
      run_removes hkill h.sched (hi.trans_le hle)
    rw [hr] at ht
    subst ht
    exact h.frame hinv hwait rfl rfl hpcs hholds

theorem exclusive_step {cfg : Config} {eff : Effects σ} (hkill : OnlyRemoves cfg eff)
    {s t : OsState σ} {th : Thread} (hc : Control cfg s) (h : Exclusive cfg s)
    (hstep : OsStep cfg eff s th t) : Exclusive cfg t := by
  cases hstep with
  | timer => exact h.same rfl rfl rfl rfl fun _ _ => Iff.rfl
  | cpu hlt hcpu => exact exclusive_cpu hkill h hc.next_le (cpuStep_move hcpu)
  | ld hld =>
    cases hld with
    | add hrun hat => exact exclusive_add h _
    | _ => exact h.same rfl rfl rfl rfl fun _ _ => Iff.rfl

theorem exclusive_reachable {cfg : Config} {eff : Effects σ} (hkill : OnlyRemoves cfg eff)
    {mem : σ} {ok : OsState σ → Thread → Prop} {s : OsState σ}
    (h : OsReachable cfg eff mem ok s) : Control cfg s ∧ Exclusive cfg s := by
  apply Reachable.invariant (fun s => Control cfg s ∧ Exclusive cfg s) _ _ h
  · intro s0 h0
    obtain rfl : s0 = OsState.start cfg mem := h0
    exact ⟨control_start cfg mem, exclusive_start cfg mem⟩
  · intro s1 th t hs _ hnext
    have hstep := osStep_step hnext
    exact ⟨control_step hs.1 hstep, exclusive_step hkill hs.1 hs.2 hstep⟩

end OsSim.Os
