import OsSim.Os.Control

/-!
# No process is abandoned

A CPU leaves its loop on a single `NULL` from `get_proc` (`os.c:91-94`). `Tracks`
ties the CPUs' `proc` variables to the scheduler's discipline, so that every
process is in a queue, on a CPU, or finished; `Covered` says why a non-empty
queue still has somebody to serve it: a CPU that is not about to leave, or a
loader that cannot finish before an idle CPU has looked again. Both survive
every step in which `get_proc` is not called at a spent quota
(`QuotaSpentAlone`), and the counterexample shows that they need not otherwise.
-/

namespace OsSim.Os
open OsSim.Base OsSim.Sched

variable {σ : Type}

/-- CPU `c` has got process `i` and not put it back. -/
def Holds (s : OsState σ) (c i : ℕ) : Prop :=
  (s.cpus c).proc = some i ∧ (s.cpus c).pc ≠ .afterPut

theorem holds_setCpu (s : OsState σ) {c : ℕ} {cpu : Cpu}
    (h : ∀ i, (cpu.proc = some i ∧ cpu.pc ≠ .afterPut) ↔ Holds s c i) (e i : ℕ) :
    Holds (s.setCpu c cpu) e i ↔ Holds s e i := by
  by_cases hec : e = c
  · subst hec
    rw [Holds, setCpu_self]
    exact h i
  · rw [Holds, setCpu_other s cpu hec]
    exact Iff.rfl

/-- What a step of CPU `c` does to the processes. Most steps only move the CPU or
the timer. -/
inductive CpuMove (cfg : Config) (eff : Effects σ) (s : OsState σ) (c : ℕ) (t : OsState σ) :
    Prop where
  | idle : t.sched = s.sched → t.next = s.next → t.freed = s.freed → t.pcOf = s.pcOf →
      (∀ e i, Holds t e i ↔ Holds s e i) → CpuMove cfg eff s c t
  | fetch (pc : Option ℕ → CpuPc) (timeLeft : ℤ) : (∀ r, pc r ≠ .afterPut) →
      (∀ i, ¬Holds s c i) → t = fetch cfg s c pc timeLeft → CpuMove cfg eff s c t
  | finish (i : ℕ) : Holds s c i → s.pcOf i = cfg.size i →
      t = Os.fetch cfg { s with freed := Function.update s.freed i true } c (fun _ => .recheck) 0 →
      CpuMove cfg eff s c t
  | put (i : ℕ) : Holds s c i → s.pcOf i ≠ cfg.size i →
      t = { s with sched := putProc cfg.prio s.sched i }.setCpu c
        { s.cpus c with pc := .afterPut } → CpuMove cfg eff s c t
  | exec (i : ℕ) (cpu : Cpu) : Holds s c i → t = (run cfg eff s i).setCpu c cpu →
      (∀ e j, Holds t e j ↔ Holds s e j) → CpuMove cfg eff s c t

theorem holds_run (cfg : Config) (eff : Effects σ) (s : OsState σ) (i e j : ℕ) :
    Holds (run cfg eff s i) e j ↔ Holds s e j := by
  obtain ⟨pcs, sched, mem, hr⟩ := run_frame cfg eff s i
  rw [hr]
  exact Iff.rfl

theorem cpuStep_move {cfg : Config} {eff : Effects σ} {s t : OsState σ} {c : ℕ}
    (h : CpuStep cfg eff s c t) : CpuMove cfg eff s c t := by
  have hnone : (s.cpus c).proc = none → ∀ i, ¬Holds s c i := fun hn i hh => by
    simp [Holds, hn] at hh
  cases h with
  | wake => exact .idle rfl rfl rfl rfl fun _ _ => Iff.rfl
  | fetchIdle hrun hpc hproc =>
    exact .fetch _ _ (fun r => by split_ifs <;> simp) (hnone hproc) rfl
  | fetchFinish hrun hpc hproc hfin => exact .finish _ ⟨hproc, by simp [hpc]⟩ hfin rfl
  | put hrun hpc hproc hfin hleft => exact .put _ ⟨hproc, by simp [hpc]⟩ hfin rfl
  | keep hrun hpc hproc hfin =>
    refine .idle rfl rfl rfl rfl (holds_setCpu s fun i => ?_)
    simp [Holds, hpc]
  | fetchPut hrun hpc => exact .fetch _ _ (fun _ => by simp) (fun i hh => absurd hpc hh.2) rfl
  | exit hrun hpc hproc hdone =>
    refine .idle rfl rfl rfl rfl (holds_setCpu s fun i => ?_)
    simp [Holds, hproc]
  | skip hrun hpc hproc hdone =>
    refine .idle rfl rfl rfl rfl (holds_setCpu s fun i => ?_)
    simp [Holds, hproc]
  | @exec i timeLeft hrun hpc hproc =>
    have hsame : ∀ e j, Holds ((run cfg eff s i).setCpu c ⟨.slot, some i, timeLeft⟩) e j ↔
        Holds (run cfg eff s i) e j := by
      apply holds_setCpu
      intro k
      rw [holds_run]
      simp [Holds, hproc, hpc]
    exact .exec i _ ⟨hproc, by simp [hpc]⟩ rfl fun e j =>
      (hsame e j).trans (holds_run cfg eff s i e j)
  | slot hrun hpc hset =>
    refine .idle rfl rfl rfl rfl (holds_setCpu _ fun i => ?_)
    simp [Holds, hpc]
  | detach => exact .idle rfl rfl rfl rfl fun _ _ => Iff.rfl

/-- The simulation follows the scheduler's discipline, with `u` its bookkeeping. -/
structure Tracks (cfg : Config) (s : OsState σ) (u : Usage ℕ ℕ) : Prop where
  reach : UsageReachable cfg.prio u
  sched : u.sched = s.sched
  added : ∀ i, i ∈ u.added ↔ i < s.next
  nodup : u.added.Nodup
  held : ∀ c i, (c, i) ∈ u.held → Holds s c i ∨ s.freed i = true
  holds : ∀ c i, Holds s c i → (c, i) ∈ u.held
  owner : ∀ c i, (c, i) ∈ u.held → c < cfg.numCpus
  freed : ∀ i, s.freed i = true → s.pcOf i = cfg.size i

theorem tracks_start (cfg : Config) (mem : σ) :
    Tracks cfg (OsState.start cfg mem) (Usage.start : Usage ℕ ℕ) where
  reach := .init rfl
  sched := rfl
  added i := by simp [Usage.start, OsState.start]
  nodup := List.nodup_nil
  held c i h := by simp [Usage.start] at h
  holds c i h := by simp [Holds, OsState.start] at h
  owner c i h := by simp [Usage.start] at h
  freed i h := by simp [OsState.start] at h

/-- Steps that move no process. -/
theorem Tracks.frame {cfg : Config} {s t : OsState σ} {u : Usage ℕ ℕ} (h : Tracks cfg s u)
    (hsched : t.sched = s.sched) (hnext : t.next = s.next) (hfreed : t.freed = s.freed)
    (hpcs : ∀ i, s.pcOf i = cfg.size i → t.pcOf i = cfg.size i)
    (hholds : ∀ c i, Holds t c i ↔ Holds s c i) : Tracks cfg t u where
  reach := h.reach
  sched := h.sched.trans hsched.symm
  added i := by rw [hnext]; exact h.added i
  nodup := h.nodup
  held c i hci := by rw [hholds, hfreed]; exact h.held c i hci
  holds c i hci := h.holds c i ((hholds c i).mp hci)
  owner := h.owner
  freed i hi := hpcs i (h.freed i (hfreed ▸ hi))

theorem holds_fetch {cfg : Config} {s : OsState σ} {c : ℕ} {pc : Option ℕ → CpuPc} {timeLeft : ℤ}
    (hpc : ∀ r, pc r ≠ .afterPut) (e i : ℕ) : Holds (fetch cfg s c pc timeLeft) e i ↔
      if e = c then (getProc cfg.prio s.sched).1 = some i else Holds s e i := by
  by_cases hec : e = c
  · subst hec
    rw [if_pos rfl, Holds, fetch, setCpu_self]
    exact ⟨And.left, fun h => ⟨h, hpc _⟩⟩
  · rw [if_neg hec, Holds, fetch, setCpu_other _ _ hec]
    exact Iff.rfl

/-- `proc = get_proc()` by a CPU whose process, if any, is finished. -/
theorem Tracks.fetch {cfg : Config} {s : OsState σ} {u : Usage ℕ ℕ} (h : Tracks cfg s u) {c : ℕ}
    (hc : c < cfg.numCpus) {pc : Option ℕ → CpuPc} (timeLeft : ℤ) (hpc : ∀ r, pc r ≠ .afterPut)
    (hfree : ∀ i, Holds s c i → s.freed i = true) :
    ∃ v, Tracks cfg (fetch cfg s c pc timeLeft) v := by
  refine ⟨{ u with
      sched := (getProc cfg.prio u.sched).2
      held := (getProc cfg.prio u.sched).1.elim u.held fun p => (c, p) :: u.held },
    .step (a := .get c) h.reach trivial rfl, ?_, h.added, h.nodup, ?_, ?_, ?_, h.freed⟩
  · simp only [Os.fetch, h.sched, OsState.setCpu]
  · intro e i he
    rw [h.sched] at he
    have hold : (e, i) ∈ u.held → Holds (Os.fetch cfg s c pc timeLeft) e i ∨ s.freed i = true := by
      intro hm
      rcases h.held e i hm with hh | hf
      · by_cases hec : e = c
        · exact Or.inr (hfree i (hec ▸ hh))
        · rw [holds_fetch hpc, if_neg hec]
          exact Or.inl hh
      · exact Or.inr hf
    rcases hr : (getProc cfg.prio s.sched).1 with - | p
    · rw [hr] at he
      exact hold he
    · rw [hr] at he
      rcases List.mem_cons.mp he with heq | hm
      · obtain ⟨rfl, rfl⟩ := Prod.mk.inj heq
        rw [holds_fetch hpc, if_pos rfl]
        exact Or.inl hr
      · exact hold hm
  · intro e i he
    rw [h.sched]
    rw [holds_fetch hpc] at he
    split_ifs at he with hec
    · rw [he, hec]
      exact List.mem_cons_self ..
    · have hm := h.holds e i he
      rcases (getProc cfg.prio s.sched).1 with - | p
      · exact hm
      · exact List.mem_cons_of_mem _ hm
  · intro e i he
    rcases hr : (getProc cfg.prio u.sched).1 with - | p
    · rw [hr] at he
      exact h.owner e i he
    · rw [hr] at he
      rcases List.mem_cons.mp he with heq | hm
      · exact (Prod.mk.inj heq).1 ▸ hc
      · exact h.owner e i hm

theorem UsageInv.held_nodup {prio : ℕ → ℕ} {u : Usage ℕ ℕ} (hu : UsageInv prio u) :
    (u.held.map Prod.snd).Nodup := by
  refine List.nodup_iff_count_le_one.mpr fun i => ?_
  have hi := hu.places i
  rw [Usage.places] at hi
  split_ifs at hi <;> omega

/-- `put_proc(proc)` of an unfinished process at the end of its time. -/
theorem Tracks.put {cfg : Config} {s : OsState σ} {u : Usage ℕ ℕ} (h : Tracks cfg s u)
    {c i : ℕ} (hproc : (s.cpus c).proc = some i) (hpc : (s.cpus c).pc ≠ .afterPut) :
    ∃ v, Tracks cfg ({ s with sched := putProc cfg.prio s.sched i }.setCpu c
      { s.cpus c with pc := .afterPut }) v := by
  have hmem : (c, i) ∈ u.held := h.holds c i ⟨hproc, hpc⟩
  have hnd := UsageInv.held_nodup h.reach.inv
  have hstep : usageStep cfg.prio u (.put c i) = some
      { sched := putProc cfg.prio u.sched i, added := u.added, held := u.held.erase (c, i)
        dropped := u.droppedBy cfg.prio i } := by
    simp only [usageStep, if_pos hmem]
  refine ⟨_, .step (a := .put c i) h.reach trivial hstep, ?_, h.added, h.nodup, ?_, ?_,
    fun e j he => h.owner e j (List.mem_of_mem_erase he), h.freed⟩
  · simp only [h.sched, OsState.setCpu]
  · intro e j he
    have hne : (e, j) ≠ (c, i) := (hnd.of_map.mem_erase_iff.mp he).1
    rcases h.held e j (List.mem_of_mem_erase he) with hh | hf
    · by_cases hec : e = c
      · subst hec
        have hij : i = j := Option.some.inj (hproc.symm.trans hh.1)
        exact absurd (by rw [hij]) hne
      · refine Or.inl ?_
        rw [Holds, setCpu_other _ _ hec]
        exact hh
    · exact Or.inr hf
  · intro e j he
    by_cases hec : e = c
    · subst hec
      rw [Holds, setCpu_self] at he
      exact absurd rfl he.2
    · rw [Holds, setCpu_other _ _ hec] at he
      exact (List.mem_erase_of_ne fun heq => hec (Prod.mk.inj heq).1).mpr (h.holds e j he)

theorem Tracks.add {cfg : Config} {s : OsState σ} {u : Usage ℕ ℕ} (h : Tracks cfg s u)
    (hprio : cfg.prio s.next < maxPrio) (ld : LdPc) :
    ∃ v, Tracks cfg
      { s with sched := addProc cfg.prio s.sched s.next, next := s.next + 1, ld := ld } v := by
  have hnew : s.next ∉ u.added := fun hm => absurd ((h.added _).mp hm) (lt_irrefl _)
  have hstep : usageStep cfg.prio u (.add s.next) = some
      { sched := addProc cfg.prio u.sched s.next, added := s.next :: u.added, held := u.held
        dropped := u.droppedBy cfg.prio s.next } := by
    simp only [usageStep, if_neg hnew]
  refine ⟨_, .step (a := .add s.next) h.reach hprio hstep, ?_, fun i => ?_, ?_, h.held, h.holds,
    h.owner, h.freed⟩
  · simp only [h.sched]
  · rw [List.mem_cons, h.added]
    simp only
    omega
  · exact List.nodup_cons.mpr ⟨hnew, h.nodup⟩

/-- With at most `MAX_QUEUE_SIZE` processes at each priority, none is dropped. -/
theorem Tracks.dropped_nil {cfg : Config} (hv : cfg.Valid) {s : OsState σ} {u : Usage ℕ ℕ}
    (h : Tracks cfg s u) (hle : s.next ≤ cfg.numProcesses) : u.dropped = [] := by
  refine List.eq_nil_iff_forall_not_mem.mpr fun p hp => ?_
  have hmany := h.reach.inv.crowded p hp
  have hsub : u.added ⊆ List.range cfg.numProcesses := fun i hi =>
    List.mem_range.mpr (((h.added i).mp hi).trans_le hle)
  have hcount := (h.nodup.subperm hsub).countP_le fun x => decide (cfg.prio x = cfg.prio p)
  have hfew := hv.few (cfg.prio p)
  omega

theorem Tracks.lt_of_holds {cfg : Config} {s : OsState σ} {u : Usage ℕ ℕ} (h : Tracks cfg s u)
    {c i : ℕ} (hh : Holds s c i) : i < s.next :=
  (h.added i).mp (h.reach.inv.added_of_held (h.holds c i hh))

theorem run_plain {cfg : Config} (hv : cfg.Valid) (eff : Effects σ) (s : OsState σ) {i : ℕ}
    (hi : i < cfg.numProcesses) :
    ∃ pcs mem, run cfg eff s i = { s with pcOf := pcs, mem := mem } ∧
      ∀ j, s.pcOf j = cfg.size j → pcs j = cfg.size j := by
  rw [run]
  split
  · exact ⟨s.pcOf, s.mem, rfl, fun _ => id⟩
  · rename_i ins hins
    have hplain := hv.no_killall i hi ins (List.mem_of_getElem? hins)
    simp only [hplain, Bool.false_eq_true, if_false]
    refine ⟨_, _, rfl, fun j hj => ?_⟩
    have hlt : s.pcOf i < cfg.size i := (List.getElem?_eq_some_iff.mp hins).1
    have hji : j ≠ i := by rintro rfl; omega
    rw [Function.update_of_ne hji]
    exact hj

theorem tracks_cpu {cfg : Config} (hv : cfg.Valid) {eff : Effects σ} {s t : OsState σ}
    {u : Usage ℕ ℕ} {c : ℕ} (h : Tracks cfg s u) (hle : s.next ≤ cfg.numProcesses)
    (hc : c < cfg.numCpus) (hmove : CpuMove cfg eff s c t) : ∃ v, Tracks cfg t v := by
  cases hmove with
  | idle hsched hnext hfreed hpcs hholds =>
    exact ⟨u, h.frame hsched hnext hfreed (fun _ hi => hpcs ▸ hi) hholds⟩
  | fetch pc timeLeft hpc hfree ht =>
    rw [ht]
    exact h.fetch hc timeLeft hpc fun i hh => absurd hh (hfree i)
  | finish i hheld hfin ht =>
    -- the finished process is freed first and keeps its entry in the bookkeeping
    have hmid : Tracks cfg { s with freed := Function.update s.freed i true } u := by
      refine { h with
        held := fun e j hej => (h.held e j hej).imp id fun hf => ?_
        freed := fun j hj => ?_ }
      · simp only [Function.update_apply]
        split_ifs
        · rfl
        · exact hf
      · simp only [Function.update_apply] at hj
        split_ifs at hj with hji
        · exact hji ▸ hfin
        · exact h.freed j hj
    rw [ht]
    refine hmid.fetch hc 0 (fun _ => by simp) fun j hh => ?_
    have hij : i = j := Option.some.inj (hheld.1.symm.trans hh.1)
    simp [hij]
  | put i hheld hfin ht =>
    rw [ht]
    exact h.put hheld.1 hheld.2
  | exec i cpu hheld ht hholds =>
    obtain ⟨pcs, mem, hr, hpcs⟩ := run_plain hv eff s ((h.lt_of_holds hheld).trans_le hle)
    rw [hr] at ht
    refine ⟨u, h.frame ?_ ?_ ?_ (fun j hj => ?_) hholds⟩
    · rw [ht]
      rfl
    · rw [ht]
      rfl
    · rw [ht]
      rfl
    · rw [ht]
      exact hpcs j hj

theorem tracks_step {cfg : Config} (hv : cfg.Valid) {eff : Effects σ} {s t : OsState σ}
    {u : Usage ℕ ℕ} {th : Thread} (hc : Control cfg s) (h : Tracks cfg s u)
    (hstep : OsStep cfg eff s th t) : ∃ v, Tracks cfg t v := by
  cases hstep with
  | timer => exact ⟨u, h.frame rfl rfl rfl (fun _ => id) fun _ _ => Iff.rfl⟩
  | cpu hlt hcpu => exact tracks_cpu hv h hc.next_le hlt (cpuStep_move hcpu)
  | ld hld =>
    cases hld with
    | add hrun hat => exact h.add (hv.prio_lt _ (hc.next_lt (Or.inr (Or.inr hat)))) _
    | _ => exact ⟨u, h.frame rfl rfl rfl (fun _ => id) fun _ _ => Iff.rfl⟩

/-! ### A non-empty queue is served -/

/-- CPU `c` got `NULL` and has not yet looked at `done`. -/
def Idle (s : OsState σ) (c : ℕ) : Prop := (s.cpus c).pc = .recheck ∧ (s.cpus c).proc = none

def Waits (s : OsState σ) : Prop := ∃ l < maxPrio, level s.sched l ≠ []

/-- Why a waiting process will be fetched: a CPU is neither leaving nor idle, or
the loader is one slot ahead of an idle CPU. -/
def Covered (cfg : Config) (s : OsState σ) : Prop :=
  (∃ c < cfg.numCpus, (s.cpus c).pc ≠ .leave ∧ ¬Idle s c) ∨
  (s.ld = .slotOuter ∧ ∃ c < cfg.numCpus, Idle s c) ∨
  (s.timer.ctl .ld = .blocked ∧ ∃ c < cfg.numCpus, Idle s c ∧
    s.timer.cnt .ld = s.timer.cnt (.cpu c) + 1)

/-- The CPUs' locals decide everything but the loader's part of `Covered`. -/
theorem Covered.frame {cfg : Config} {s t : OsState σ} (h : Covered cfg s)
    (hcpus : t.cpus = s.cpus)
    (hld : s.ld = .slotOuter → ∀ c < cfg.numCpus, Idle s c → t.ld = .slotOuter ∨
      t.timer.ctl .ld = .blocked ∧ t.timer.cnt .ld = t.timer.cnt (.cpu c) + 1)
    (hcnt : s.timer.ctl .ld = .blocked → ∀ c < cfg.numCpus, Idle s c →
      s.timer.cnt .ld = s.timer.cnt (.cpu c) + 1 → t.timer.ctl .ld = .blocked ∧
        t.timer.cnt .ld = t.timer.cnt (.cpu c) + 1) : Covered cfg t := by
  have hidle : ∀ c, Idle t c ↔ Idle s c := fun c => by simp only [Idle, hcpus]
  rcases h with ⟨c, hc, hl, hi⟩ | ⟨ho, c, hc, hi⟩ | ⟨hb, c, hc, hi, heq⟩
  · exact Or.inl ⟨c, hc, hcpus ▸ hl, fun hi' => hi ((hidle c).mp hi')⟩
  · rcases hld ho c hc hi with h1 | ⟨h1, h2⟩
    · exact Or.inr (Or.inl ⟨h1, c, hc, (hidle c).mpr hi⟩)
    · exact Or.inr (Or.inr ⟨h1, c, hc, (hidle c).mpr hi, h2⟩)
  · obtain ⟨h1, h2⟩ := hcnt hb c hc hi heq
    exact Or.inr (Or.inr ⟨h1, c, hc, (hidle c).mpr hi, h2⟩)

theorem covered_of_cpu {cfg : Config} {s : OsState σ} {c : ℕ} {cpu : Cpu} (hc : c < cfg.numCpus)
    (hl : cpu.pc ≠ .leave) (hi : cpu.pc = .recheck → cpu.proc ≠ none) :
    Covered cfg (s.setCpu c cpu) := by
  refine Or.inl ⟨c, hc, by rw [setCpu_self]; exact hl, fun hidle => ?_⟩
  rw [Idle, setCpu_self] at hidle
  exact hi hidle.1 hidle.2

/-- The admitted steps: `get_proc` is not called while the only non-empty level
is the current one, it is not level 0 and its quota is used up. -/
def GetsServed (cfg : Config) (s : OsState σ) : Thread → Prop
  | .cpu c => callsGet cfg s c = true → ¬QuotaSpentAlone s.sched
  | _ => True

instance (cfg : Config) (s : OsState σ) (th : Thread) : Decidable (GetsServed cfg s th) := by
  cases th <;> simp only [GetsServed] <;> infer_instance

/-- A served `get_proc` covers the queue it leaves behind, if any is left. -/
theorem covered_fetch {cfg : Config} {s : OsState σ} (hs : SchedInv cfg.prio s.sched)
    (hspent : ¬QuotaSpentAlone s.sched) {c : ℕ} (hc : c < cfg.numCpus) {pc : Option ℕ → CpuPc}
    (timeLeft : ℤ) (hpc : ∀ r, pc r ≠ .leave) (hw : Waits (fetch cfg s c pc timeLeft)) :
    Covered cfg (fetch cfg s c pc timeLeft) := by
  refine covered_of_cpu hc (hpc _) fun _ hnull => ?_
  have hstep := getProc_step cfg.prio s.sched hs
  rw [show (getProc cfg.prio s.sched).1 = none from hnull] at hstep
  rcases hstep.none_cases hs with ⟨hempty, ht⟩ | ⟨hq, -⟩
  · obtain ⟨l, hl, hne⟩ := hw
    refine hne ?_
    simp only [fetch, OsState.setCpu, ht]
    exact hempty l hl
  · exact hspent hq

theorem covered_cpu {cfg : Config} {eff : Effects σ} {s t : OsState σ}
    {u : Usage ℕ ℕ} {c : ℕ} (hctl : Control cfg s) (htr : Tracks cfg s u) (hc : c < cfg.numCpus)
    (hcov : Waits s → Covered cfg s) (hok : GetsServed cfg s (.cpu c))
    (hstep : CpuStep cfg eff s c t) (hw : Waits t) : Covered cfg t := by
  have hs : SchedInv cfg.prio s.sched := htr.sched ▸ htr.reach.inv.sched
  cases hstep with
  | wake hb hwk =>
    obtain ⟨hc', hcnt, -⟩ := wake_ctl hwk
    refine (hcov hw).frame rfl (fun ho _ _ _ => Or.inl ho) fun hbl e _ _ heq => ?_
    simpa [hc', hcnt] using And.intro hbl heq
  | fetchIdle hrun hpc hproc =>
    refine covered_fetch hs (hok ?_) hc _ (fun r => by split_ifs <;> simp) hw
    simp [callsGet, hrun, hpc, hproc]
  | @fetchFinish i hrun hpc hproc hfin =>
    refine covered_fetch (s := { s with freed := Function.update s.freed i true }) hs (hok ?_) hc 0
      (fun _ => by simp) hw
    simp [callsGet, hrun, hpc, hproc, hfin]
  | put hrun hpc hproc hfin hleft => exact covered_of_cpu hc (by simp) (by simp)
  | keep hrun hpc hproc hfin => exact covered_of_cpu hc (by simp) (by simp [hproc])
  | fetchPut hrun hpc =>
    refine covered_fetch hs (hok ?_) hc _ (fun _ => by simp) hw
    simp [callsGet, hrun, hpc]
  | exit hrun hpc hproc hdone =>
    -- `done` is set, so only the first reason can hold, and of another CPU
    have hleave := hctl.done_leave hdone
    rcases hcov hw with ⟨e, he, hl, hi⟩ | ⟨ho, -⟩ | ⟨hb, -⟩
    · have hec : e ≠ c := by
        rintro rfl
        exact hi ⟨hpc, hproc⟩
      refine Or.inl ⟨e, he, ?_, ?_⟩
      · rw [setCpu_other _ _ hec]
        exact hl
      · rw [Idle, setCpu_other _ _ hec]
        exact hi
    · simp [hleave] at ho
    · rcases hctl.ld_blocked hb with h1 | h1 <;> simp [hleave] at h1
  | skip hrun hpc hproc hdone => exact covered_of_cpu hc (by simp) (by simp)
  | exec timeLeft hrun hpc hproc => exact covered_of_cpu hc (by simp) (by simp)
  | slot hrun hpc hset => exact covered_of_cpu hc (by simp) (by simp)
  | detach hrun hpc hd =>
    obtain ⟨hc', hcnt⟩ := detachEvent_ctl hd
    refine (hcov hw).frame rfl (fun ho _ _ _ => Or.inl ho) fun hbl e _ _ heq => ?_
    simpa [hc', hcnt] using And.intro hbl heq

theorem Control.cnt_of_running {cfg : Config} {s : OsState σ} (h : Control cfg s) {c : ℕ}
    (hc : c < cfg.numCpus) (hidle : Idle s c) : s.timer.cnt (.cpu c) = s.timer.time := by
  have hrun : s.timer.ctl (.cpu c) = .run := by
    rcases hctl : s.timer.ctl (.cpu c) with - | - | -
    · rfl
    · exact absurd ((h.blocked_top c hc hctl).symm.trans hidle.1) (by simp)
    · exact absurd ((h.gone_leave c hc hctl).symm.trans hidle.1) (by simp)
  exact h.timer.barrier (mem_devList_cpu hc) (by simp [hrun]) (h.timer.run_open _ hrun)

theorem covered_ld {cfg : Config} (hv : cfg.Valid) {s t : OsState σ} (hctl : Control cfg s)
    (hcov : Waits s → Covered cfg s) (hstep : LdStep cfg s t) (hw : Waits t) : Covered cfg t := by
  cases hstep with
  | wake hb hwk =>
    -- a loader one slot ahead of an idle CPU cannot be woken
    obtain ⟨-, -, -, hopen⟩ := wake_ctl hwk
    have htime := hctl.timer.barrier (mem_devList_ld cfg) (by simp [hb]) hopen
    refine (hcov hw).frame rfl (fun ho _ _ _ => Or.inl ho) fun _ c hc hidle heq => ?_
    have hcpu := hctl.cnt_of_running hc hidle
    omega
  | next hrun hld hlt =>
    exact (hcov hw).frame rfl (fun ho => by simp [hld] at ho) fun hb => by simp [hrun] at hb
  | all hrun hld hge =>
    exact (hcov hw).frame rfl (fun ho => by simp [hld] at ho) fun hb => by simp [hrun] at hb
  | early hrun hld =>
    exact (hcov hw).frame rfl (fun ho => by simp [hld] at ho) fun hb => by simp [hrun] at hb
  | start hrun hld =>
    exact (hcov hw).frame rfl (fun ho => by simp [hld] at ho) fun hb => by simp [hrun] at hb
  | add hrun hld =>
    -- no CPU has left, since `done` is not set: CPU 0 is at work or idle
    have hl : (s.cpus 0).pc ≠ .leave := fun hl => by
      have hleave := hctl.done_leave (hctl.leave_done 0 hv.cpus_pos hl).2
      simp [hld] at hleave
    by_cases hi : Idle s 0
    · exact Or.inr (Or.inl ⟨rfl, 0, hv.cpus_pos, hi⟩)
    · exact Or.inl ⟨0, hv.cpus_pos, hl, hi⟩
  | slotWait hrun hld hset =>
    exact (hcov hw).frame rfl (fun ho => by simp [hld] at ho) fun hb => by simp [hrun] at hb
  | slotOuter hrun hld hset =>
    obtain ⟨hc', hcnt⟩ := setDone_ctl hset
    refine (hcov hw).frame rfl (fun _ c hc hidle => Or.inr ⟨by simp [hc'], ?_⟩)
      fun hb => by simp [hrun] at hb
    have hcpu := hctl.cnt_of_running hc hidle
    have hld' := hctl.timer.barrier (mem_devList_ld cfg) (by simp [hrun])
      (hctl.timer.run_open _ hrun)
    simp [hcnt, hcpu, hld']
  | setDone hrun hld =>
    exact (hcov hw).frame rfl (fun ho => by simp [hld] at ho) fun hb => by simp [hrun] at hb
  | detach hrun hld hd =>
    exact (hcov hw).frame rfl (fun ho => by simp [hld] at ho) fun hb => by simp [hrun] at hb

/-! ### Whole runs -/

structure NoLoss (cfg : Config) (s : OsState σ) : Prop where
  control : Control cfg s
  tracks : ∃ u, Tracks cfg s u
  covered : Waits s → Covered cfg s

theorem noLoss_start (cfg : Config) (mem : σ) : NoLoss cfg (OsState.start cfg mem) where
  control := control_start cfg mem
  tracks := ⟨_, tracks_start cfg mem⟩
  covered := fun ⟨_, _, hne⟩ => absurd (QueueT.toList_new) hne

theorem noLoss_step {cfg : Config} (hv : cfg.Valid) {eff : Effects σ} {s t : OsState σ}
    {th : Thread} (h : NoLoss cfg s) (hok : GetsServed cfg s th) (hstep : OsStep cfg eff s th t) :
    NoLoss cfg t := by
  obtain ⟨u, hu⟩ := h.tracks
  refine ⟨control_step h.control hstep, tracks_step hv h.control hu hstep, fun hw => ?_⟩
  cases hstep with
  | timer htm =>
    obtain ⟨hctl, hcnt⟩ := timerRoutine_ctl htm
    refine (h.covered hw).frame rfl (fun ho _ _ _ => Or.inl ho) fun hb e _ _ heq => ?_
    simpa [hctl, hcnt] using And.intro hb heq
  | ld hld => exact covered_ld hv h.control h.covered hld hw
  | cpu hc hcpu => exact covered_cpu h.control hu hc h.covered hok hcpu hw

/-- The states reachable by the threads' steps, each meeting `ok`. -/
def OsReachable (cfg : Config) (eff : Effects σ) (mem : σ) (ok : OsState σ → Thread → Prop) :
    OsState σ → Prop :=
  Reachable (System.ofStep (OsState.start cfg mem) (osStep cfg eff)) ok

theorem noLoss_reachable {cfg : Config} (hv : cfg.Valid) {eff : Effects σ} {mem : σ}
    {s : OsState σ} (h : OsReachable cfg eff mem (GetsServed cfg) s) : NoLoss cfg s := by
  refine Reachable.invariant (NoLoss cfg) ?_ ?_ h
  · intro s0 h0
    obtain rfl : s0 = OsState.start cfg mem := h0
    exact noLoss_start cfg mem
  · intro s1 th t hs hok hnext
    exact noLoss_step hv hs hok (osStep_step hnext)

theorem NoLoss.not_waits {cfg : Config} {s : OsState σ} (h : NoLoss cfg s) (hleft : AllLeft cfg s) :
    ¬Waits s := by
  intro hw
  have hld := h.control.done_leave hleft.1
  rcases h.covered hw with ⟨c, hc, hl, -⟩ | ⟨ho, -⟩ | ⟨hb, -⟩
  · exact hl (h.control.gone_leave c hc (hleft.2 c hc))
  · simp [hld] at ho
  · rcases h.control.ld_blocked hb with h1 | h1 <;> simp [hld] at h1

/-- In every run in which no `get_proc` call finds the quota spent at the only
non-empty level, every process is finished once the loader has set `done` and
all CPUs have left. -/
theorem finished_of_allLeft {cfg : Config} (hv : cfg.Valid) (eff : Effects σ) (mem : σ)
    {s : OsState σ} (h : OsReachable cfg eff mem (GetsServed cfg) s) (hleft : AllLeft cfg s) :
    ∀ i < cfg.numProcesses, s.pcOf i = cfg.size i := by
  intro i hi
  have hinv := noLoss_reachable hv h
  obtain ⟨u, hu⟩ := hinv.tracks
  have hnext := hinv.control.next_all (Or.inr (hinv.control.done_leave hleft.1))
  have hplaces := hu.reach.inv.places i
  rw [if_pos ((hu.added i).mpr (hnext ▸ hi)), Usage.places, hu.dropped_nil hv hnext.le] at hplaces
  have hwait : waiting u.sched i = 0 := by
    refine Finset.sum_eq_zero fun l hl => List.count_eq_zero.mpr fun hm => ?_
    refine hinv.not_waits hleft ⟨l, Finset.mem_range.mp hl, ?_⟩
    rw [← hu.sched]
    exact List.ne_nil_of_mem hm
  have hheld : i ∈ u.held.map Prod.snd := by
    refine List.count_pos_iff.mp ?_
    rw [hwait, List.count_nil] at hplaces
    omega
  obtain ⟨⟨c, j⟩, hm, rfl⟩ := List.mem_map.mp hheld
  rcases hu.held c j hm with hh | hf
  · have hc := hu.owner c j hm
    have hl := hinv.control.leave_done c hc (hinv.control.gone_leave c hc (hleft.2 c hc))
    exact absurd (hl.1.symm.trans hh.1) (by simp)
  · exact hu.freed j hf

/-- One CPU, time slot 1, and one process of `n` instructions `calc`. -/
def Config.single (prio n : ℕ) : Config where
  timeSlot := 1
  numCpus := 1
  numProcesses := 1
  startTime _ := 0
  prio _ := prio
  text _ := List.replicate n ⟨.calc, 0, 0, 0, 0⟩

theorem single_valid {prio : ℕ} (hprio : prio < maxPrio) (n : ℕ) :
    (Config.single prio n).Valid where
  cpus_pos := le_rfl
  slot_pos := le_rfl
  prio_lt _ _ := hprio
  few q := List.countP_le_length.trans (by simp [Config.single, maxQueueSize])
  no_killall _ _ ins hins := by rw [List.eq_of_mem_replicate hins]; rfl

instance (cfg : Config) (s : OsState σ) : Decidable (AllLeft cfg s) :=
  inferInstanceAs (Decidable (_ ∧ _))

def noEffects : Effects Unit := ⟨fun _ _ => id, fun _ _ s m => (s, m)⟩

/-- The loader adds the process and waits, the CPU runs one instruction and
waits, the timer lets both go on, and the loader finishes. -/
def firstSlot : List Thread :=
  List.replicate 4 .ld ++ List.replicate 3 (.cpu 0) ++ List.replicate 6 .timer ++
    [.cpu 0] ++ List.replicate 4 .ld

theorem finished_after_one_instruction :
    ∃ s, OsReachable (.single 0 1) noEffects () (GetsServed (.single 0 1)) s ∧
      AllLeft (.single 0 1) s ∧ s.pcOf 0 = 1 := by
  obtain ⟨s, hs, hp⟩ := exists_reachable_of_runAll (osStep (.single 0 1) noEffects)
    (GetsServed (.single 0 1)) (OsState.start (.single 0 1) ())
    (firstSlot ++ List.replicate 3 (.cpu 0)) (fun s => decide (AllLeft (.single 0 1) s))
    (by decide +kernel)
  have hleft := of_decide_eq_true hp
  exact ⟨s, hs, hleft, finished_of_allLeft (single_valid (by decide) 1) noEffects () hs hleft 0
    (by decide)⟩

/-- A process of priority 139 with two instructions is put back after the first,
`get_proc` answers `NULL` because its level has used up its quota, and the CPU,
finding `done` set, leaves. -/
theorem process_abandoned_at_spent_quota :
    (Config.single 139 2).Valid ∧
      ∃ s, OsReachable (.single 139 2) noEffects () (fun _ _ => True) s ∧
        AllLeft (.single 139 2) s ∧ s.pcOf 0 = 1 ∧ level s.sched 139 = [0] := by
  obtain ⟨s, hs, hp⟩ := exists_reachable_of_runAll (osStep (.single 139 2) noEffects)
    (fun _ _ => True) (OsState.start (.single 139 2) ())
    (firstSlot ++ List.replicate 4 (.cpu 0))
    (fun s => decide (AllLeft (.single 139 2) s ∧ s.pcOf 0 = 1 ∧ level s.sched 139 = [0]))
    (by decide +kernel)
  exact ⟨single_valid (by decide) 2, s, hs, of_decide_eq_true hp⟩

end OsSim.Os
