import OsSim.Mem.Conserve
import OsSim.Os.Killed

/-!
# The simulation with its paged memory (cpu.c:61-112, libstd.c:14-27)

The scheduler loops with instructions that really call the memory library, all
processes over the same two devices. A step whose accesses are undefined is no
step. `PagedInv` follows the frames through whole runs: as long as no step
drops one, each is on its free list or in one page of one process that is
neither finished nor terminated.
-/

namespace OsSim.Os
open OsSim.Base OsSim.Sched OsSim.Mem

/-- The call of the memory library an instruction makes, system call 101 apart
(`cpu.c:70-105`, `syscalltbl.lst`). -/
def memOp (ins : Inst) : Option MemOp :=
  match ins.opcode with
  | .calc => none
  | .alloc => some (.alloc ins.arg0 ins.arg1)
  | .free => some (.free ins.arg0)
  | .read => some (.read ins.arg0 ins.arg1)
  | .write => some (.write (ins.arg0.setWidth 8) ins.arg1 ins.arg2)
  | .syscall => if ins.arg0 = 17 then some (.memmap ⟨ins.arg1, ins.arg2, ins.arg3⟩) else none

/-- The memory, and the processes `killall` has terminated so far, a history
variable. -/
structure Paged where
  sys : MemSys ℕ
  terminated : List ℕ

/-- The processes that a system call 101 of process `i` terminates. -/
def terminatedBy (cfg : Config) (prog : ℕ → Program) (sched : SchedState ℕ) (sys : MemSys ℕ)
    (i : ℕ) (ins : Inst) : List ℕ :=
  match (procName sys i ins.arg1).bind Prod.fst with
  | none => []
  | some name => (killSched cfg.prio (named prog name) sched).2

/-- None is the memory after undefined behaviour. -/
def pagedMemory (cfg : Config) (prog : ℕ → Program) : UserMemory (Option Paged) where
  memory i ins mem := mem.bind fun m =>
    match memOp ins with
    | none => some m
    | some op => (memStep m.sys (i, op)).map fun sys => { m with sys := sys }
  name i ins mem := mem.bind fun m => (procName m.sys i ins.arg1).bind Prod.fst
  killed i ins sched mem := mem.bind fun m =>
    (sysKillall cfg.prio prog sched m.sys i ins.arg1).map fun (_, _, sys) =>
      ⟨sys, terminatedBy cfg prog sched m.sys i ins ++ m.terminated⟩

def pagedEffects (cfg : Config) (prog : ℕ → Program) : Effects (Option Paged) :=
  killEffects cfg prog (pagedMemory cfg prog)

def pagedStep (cfg : Config) (prog : ℕ → Program) (s : OsState (Option Paged)) (th : Thread) :
    Option (OsState (Option Paged)) :=
  (osStep cfg (pagedEffects cfg prog) s th).filter fun t => t.mem.isSome

def PagedReachable (cfg : Config) (prog : ℕ → Program) (ramSize swapSize : ℕ)
    (ok : OsState (Option Paged) → Thread → Prop) : OsState (Option Paged) → Prop :=
  Reachable (System.ofStep (OsState.start cfg (some ⟨.start ramSize swapSize, []⟩))
    (pagedStep cfg prog)) ok

/-! ### Steps that drop no frame -/

/-- Finished and freed, or terminated by a system call 101. -/
def Gone (s : OsState (Option Paged)) (m : Paged) (p : ℕ) : Prop :=
  s.freed p = true ∨ p ∈ m.terminated

instance (s : OsState (Option Paged)) (m : Paged) : DecidablePred (Gone s m) := fun _ =>
  inferInstanceAs (Decidable (_ ∨ _))

/-- The reads of `copy_from_user` at the offsets, one after the other. -/
def ReadsConserve (p : ℕ) (userSrc : BitVec 32) : List ℕ → MemSys ℕ → Prop
  | [], _ => True
  | i :: rest, sys => AccessConserves sys p userSrc.toInt (BitVec.ofNat 32 i).toInt ∧
      ∀ sys' ∈ memStep sys (p, .read userSrc (BitVec.ofNat 32 i)), ReadsConserve p userSrc rest sys'

/-- The copy of the name drops no frame, and no process that the call terminates has
one. -/
def KillConserves (cfg : Config) (prog : ℕ → Program) (s : OsState (Option Paged)) (m : Paged)
    (i : ℕ) (ins : Inst) : Prop :=
  ReadsConserve i ins.arg1 (0 :: List.range 99) m.sys ∧
    ∀ j ∈ terminatedBy cfg prog s.sched m.sys i ins, ∀ n, m.sys.own (j, n) = none

/-- The process that the step finishes has no frame, and the instruction that it
executes drops none. -/
def StepConserves (cfg : Config) (prog : ℕ → Program) (s : OsState (Option Paged)) (th : Thread) :
    Prop :=
  ∀ m ∈ s.mem, (∀ i ∈ finishesNow cfg s th, ∀ n, m.sys.own (i, n) = none) ∧
    ∀ i ∈ runsNow s th, ∀ ins ∈ (cfg.text i)[s.pcOf i]?,
      if ins.isKillall then KillConserves cfg prog s m i ins
      else ∀ op ∈ memOp ins, CallConserves (Gone s m) m.sys i op

/-! ### What a step does to the memory -/

section Step
variable {σ : Type} {cfg : Config} {eff : Effects σ}

theorem run_mem (cfg : Config) (eff : Effects σ) (s : OsState σ) (i : ℕ) :
    (run cfg eff s i).mem = match (cfg.text i)[s.pcOf i]? with
      | none => s.mem
      | some ins =>
        if ins.isKillall then (eff.killall i ins s.sched s.mem).2 else eff.memory i ins s.mem := by
  unfold run
  cases (cfg.text i)[s.pcOf i]? with
  | none => rfl
  | some ins =>
    dsimp only
    split_ifs
    · rfl
    · rfl

theorem mem_osStep {s t : OsState σ} {th : Thread} (h : OsStep cfg eff s th t) :
    (∃ i, runsNow s th = some i ∧ t.mem = (run cfg eff s i).mem ∧ t.freed = s.freed) ∨
    (∃ i, finishesNow cfg s th = some i ∧ t.mem = s.mem ∧
      t.freed = Function.update s.freed i true) ∨
    t.mem = s.mem ∧ t.freed = s.freed := by
  cases h with
  | timer => exact Or.inr (Or.inr ⟨rfl, rfl⟩)
  | ld hld => cases hld <;> exact Or.inr (Or.inr ⟨rfl, rfl⟩)
  | cpu hc hcpu =>
    cases hcpu with
    | @fetchFinish i hrun hpc hproc hfin =>
      refine Or.inr (Or.inl ⟨i, ?_, rfl, rfl⟩)
      simp [finishesNow, hrun, hpc, hproc, hfin, Option.filter]
    | @exec i timeLeft hrun hpc hproc =>
      refine Or.inl ⟨i, ?_, rfl, ?_⟩
      · simp [runsNow, hrun, hpc, hproc]
      · obtain ⟨pcs, sched, mem, hr⟩ := run_frame cfg eff s i
        rw [hr]
        rfl
    | _ => exact Or.inr (Or.inr ⟨rfl, rfl⟩)

end Step

/-! ### System call 101 -/

section Kill
variable {gone : ℕ → Prop} {sys sys' : MemSys ℕ} {p : ℕ} {userSrc : BitVec 32}

theorem conserveInv_read {offset : BitVec 32} (h : ConserveInv gone sys)
    (hok : AccessConserves sys p userSrc.toInt offset.toInt)
    (hread : memStep sys (p, .read userSrc offset) = some sys') : ConserveInv gone sys' := by
  have hcall : CallConserves gone sys p (.read userSrc offset) := hok
  exact conserveInv_call h hcall hread

theorem conserveInv_procName (h : ConserveInv gone sys)
    (hok : ReadsConserve p userSrc (0 :: List.range 99) sys) {name : Option (List Byte)}
    (hname : procName sys p userSrc = some (name, sys')) : ConserveInv gone sys' := by
  obtain ⟨rest, hlast, -⟩ := procName_reads
    (I := fun offsets m => ConserveInv gone m ∧ ReadsConserve p userSrc offsets m)
    (fun i rest m m' hm hread => ⟨conserveInv_read hm.1 hm.2.1 hread, hm.2.2 m' hread⟩)
    ⟨h, hok⟩ hname
  exact hlast

theorem conserveInv_freeRegs {prog : ℕ → Program} (h : ConserveInv gone sys)
    (hfree : freeRegs prog sys p = some sys') : ConserveInv gone sys' := by
  apply foldlM_invariant _ _ h hfree
  intro mid j last hmid hstep
  split_ifs at hstep
  · have hcall : CallConserves gone mid p (.free ((prog p).regs j)) := trivial
    exact conserveInv_call hmid hcall hstep
  · obtain rfl := Option.some.inj hstep
    exact hmid

theorem conserveInv_killall {cfg : Config} {prog : ℕ → Program} {s : OsState (Option Paged)}
    {m : Paged} {i : ℕ} {ins : Inst} (h : ConserveInv (Gone s m) m.sys)
    (hok : KillConserves cfg prog s m i ins) {rc : ℤ} {sched' : SchedState ℕ}
    (hkill : sysKillall cfg.prio prog s.sched m.sys i ins.arg1 = some (rc, sched', sys')) :
    ConserveInv (fun p => s.freed p = true ∨
      p ∈ terminatedBy cfg prog s.sched m.sys i ins ++ m.terminated) sys' := by
  have hstart : ConserveInv (fun p => s.freed p = true ∨
      p ∈ terminatedBy cfg prog s.sched m.sys i ins ++ m.terminated) m.sys := by
    apply h.more_gone
    rintro p (hp | hp)
    · exact Or.inl (Or.inl hp)
    · rcases List.mem_append.mp hp with hnew | hold
      · exact Or.inr (hok.2 p hnew)
      · exact Or.inl (Or.inr hold)
  rcases sysKillall_cases hkill with ⟨hname, -⟩ | ⟨name, mem1, hname, -, hfree⟩
  · exact conserveInv_procName hstart hok.1 hname
  · have hmem1 := conserveInv_procName hstart hok.1 hname
    exact foldlM_invariant (fun mid p last hmid hstep => conserveInv_freeRegs hmid hstep) _ hmem1
      hfree

end Kill

/-! ### Whole runs -/

/-- Every frame of both devices is exactly once on the free list and in no page of a
process that is there, or not on it and in exactly one such page. -/
def FramesConserved (s : OsState (Option Paged)) : Prop :=
  ∃ m, s.mem = some m ∧ ∀ d, ∀ f < frameCount (m.sys.dev d),
    ((m.sys.dev d).freeFpList.count f = 1 ∧ ∀ x, ¬Gone s m x.1 → m.sys.own x ≠ some (d, f)) ∨
    ((m.sys.dev d).freeFpList.count f = 0 ∧ ∃! x, ¬Gone s m x.1 ∧ m.sys.own x = some (d, f))

def PagedInv (s : OsState (Option Paged)) : Prop :=
  ∃ m, s.mem = some m ∧ ConserveInv (Gone s m) m.sys

theorem PagedInv.conserved {s : OsState (Option Paged)} (h : PagedInv s) : FramesConserved s := by
  obtain ⟨m, hm, hinv⟩ := h
  refine ⟨m, hm, fun d f hf => ?_⟩
  rcases hinv.covers (d, f) hf with hfree | ⟨x, hx⟩
  · left
    constructor
    · exact List.count_eq_one_of_mem (hinv.frames.free d).nodup hfree
    · intro x _ hx
      exact hinv.frames.owns.busy hx hfree
  · right
    constructor
    · exact List.count_eq_zero.mpr (hinv.frames.owns.busy hx)
    · refine ⟨x, ⟨fun hgone => ?_, hx⟩, fun y hy => hinv.frames.owns.alone hy.2 hx⟩
      rw [hinv.gone_none x.1 hgone x.2] at hx
      exact absurd hx (by simp)

theorem pagedInv_run {cfg : Config} {prog : ℕ → Program} {s t : OsState (Option Paged)} {i : ℕ}
    {m m' : Paged} (hm : s.mem = some m) (hinv : ConserveInv (Gone s m) m.sys)
    (hok : ∀ ins ∈ (cfg.text i)[s.pcOf i]?, if ins.isKillall then KillConserves cfg prog s m i ins
      else ∀ op ∈ memOp ins, CallConserves (Gone s m) m.sys i op)
    (hfreed : t.freed = s.freed) (hrun : some m' = (run cfg (pagedEffects cfg prog) s i).mem) :
    ConserveInv (Gone t m') m'.sys := by
  have hgone : ∀ {m1 : Paged}, m1.terminated = m.terminated → Gone t m1 = Gone s m := by
    intro m1 heq
    unfold Gone
    rw [hfreed, heq]
  rw [run_mem, hm] at hrun
  cases hins : (cfg.text i)[s.pcOf i]? with
  | none =>
    rw [hins] at hrun
    obtain rfl := Option.some.inj hrun
    rw [hgone rfl]
    exact hinv
  | some ins =>
    rw [hins] at hrun
    have hins' := hok ins hins
    by_cases hkill : ins.isKillall = true
    · rw [if_pos hkill] at hins'
      dsimp only at hrun
      rw [if_pos hkill] at hrun
      obtain ⟨⟨rc, sched', sys⟩, hsys, heq⟩ := Option.map_eq_some_iff.mp hrun.symm
      obtain rfl := heq
      unfold Gone
      rw [hfreed]
      exact conserveInv_killall hinv hins' hsys
    · rw [if_neg hkill] at hins'
      dsimp only at hrun
      rw [if_neg hkill] at hrun
      cases hop : memOp ins with
      | none =>
        obtain rfl : m' = m := by simpa [pagedEffects, killEffects, pagedMemory, hop] using hrun
        rw [hgone rfl]
        exact hinv
      | some op =>
        have hcall : (memStep m.sys (i, op)).map (fun sys => { m with sys := sys }) = some m' := by
          simpa [pagedEffects, killEffects, pagedMemory, hop] using hrun.symm
        obtain ⟨sys, hsys, rfl⟩ := Option.map_eq_some_iff.mp hcall
        have hsame : Gone t ⟨sys, m.terminated⟩ = Gone s m := hgone rfl
        rw [hsame]
        exact conserveInv_call hinv (hins' op hop) hsys

theorem pagedInv_step {cfg : Config} {prog : ℕ → Program} {s t : OsState (Option Paged)}
    {th : Thread} (h : PagedInv s) (hok : StepConserves cfg prog s th)
    (hnext : pagedStep cfg prog s th = some t) : PagedInv t := by
  obtain ⟨m, hm, hinv⟩ := h
  obtain ⟨hos, hdefined⟩ := Option.filter_eq_some_iff.mp hnext
  obtain ⟨hfinish, hruns⟩ := hok m hm
  rcases mem_osStep (osStep_step hos) with ⟨i, hi, hmem, hfreed⟩ | ⟨i, hi, hmem, hfreed⟩ |
    ⟨hmem, hfreed⟩
  · obtain ⟨m', hm'⟩ := Option.isSome_iff_exists.mp hdefined
    exact ⟨m', hm', pagedInv_run hm hinv (hruns i hi) hfreed (hm'.symm.trans hmem)⟩
  · refine ⟨m, hmem.trans hm, hinv.more_gone ?_⟩
    rintro p (hp | hp)
    · rw [hfreed] at hp
      by_cases hpi : p = i
      · exact Or.inr (hpi ▸ hfinish i hi)
      · rw [Function.update_of_ne hpi] at hp
        exact Or.inl (Or.inl hp)
    · exact Or.inl (Or.inr hp)
  · refine ⟨m, hmem.trans hm, hinv.more_gone ?_⟩
    rintro p (hp | hp)
    · exact Or.inl (Or.inl (hfreed ▸ hp))
    · exact Or.inl (Or.inr hp)

theorem pagedInv_reachable {cfg : Config} {prog : ℕ → Program} {ramSize swapSize : ℕ}
    {s : OsState (Option Paged)}
    (h : PagedReachable cfg prog ramSize swapSize (StepConserves cfg prog) s) : PagedInv s := by
  apply Reachable.invariant PagedInv _ _ h
  · intro s0 h0
    obtain rfl : s0 = OsState.start cfg (some ⟨.start ramSize swapSize, []⟩) := h0
    exact ⟨_, rfl, conserveInv_start _ ramSize swapSize⟩
  · intro s1 th t hs hok hnext
    exact pagedInv_step hs hok hnext

/-- Whatever the programs, the devices and the interleaving: while no step drops a
frame, every frame is on its free list once or in one page of one process that is
neither finished nor terminated. -/
theorem frames_conserved {cfg : Config} {prog : ℕ → Program} {ramSize swapSize : ℕ}
    {s : OsState (Option Paged)}
    (h : PagedReachable cfg prog ramSize swapSize (StepConserves cfg prog) s) :
    FramesConserved s := (pagedInv_reachable h).conserved

/-- A step that finishes no process and executes no system call 101. -/
def QuietStep (cfg : Config) (s : OsState (Option Paged)) (th : Thread) : Prop :=
  finishesNow cfg s th = none ∧
    ∀ i ∈ runsNow s th, ∀ ins ∈ (cfg.text i)[s.pcOf i]?, ins.isKillall = false ∧
      ∀ m ∈ s.mem, ∀ op ∈ memOp ins, CallConserves (Gone s m) m.sys i op

instance (cfg : Config) (s : OsState (Option Paged)) (th : Thread) :
    Decidable (QuietStep cfg s th) := inferInstanceAs (Decidable (_ ∧ _))

theorem stepConserves_of_quiet {cfg : Config} (prog : ℕ → Program) {s : OsState (Option Paged)}
    {th : Thread} (h : QuietStep cfg s th) : StepConserves cfg prog s th := by
  intro m hm
  constructor
  · intro i hi
    rw [h.1] at hi
    exact absurd hi (by simp)
  · intro i hi ins hins
    obtain ⟨hkill, hcalls⟩ := h.2 i hi ins hins
    rw [if_neg (by simp [hkill])]
    exact hcalls m hm

/-- One process that allocates 300 bytes. -/
def Config.allocator : Config :=
  { Config.single 0 1 with text := fun _ => [⟨.alloc, 300, 0, 0, 0⟩] }

def noPaths : ℕ → Program := fun _ => ⟨[], fun _ => 0⟩

theorem allocated_in_first_slot :
    ∃ s, PagedReachable .allocator noPaths 1024 1024 (StepConserves .allocator noPaths) s ∧
      runsNow s (.cpu 0) = none ∧
      (∃ m, s.mem = some m ∧ m.sys.own (0, 0) = some (.mram, 1)) ∧
      ∃ t, pagedStep .allocator noPaths s (.cpu 0) = some t ∧ t.freed 0 = true := by
  obtain ⟨s, hs, hp⟩ := exists_reachable_of_runAll (pagedStep .allocator noPaths)
    (QuietStep .allocator) (OsState.start .allocator (some ⟨.start 1024 1024, []⟩)) firstSlot
    (fun (s : OsState (Option Paged)) => decide (runsNow s (.cpu 0) = none) &&
      s.mem.any (fun (m : Paged) => decide (m.sys.own (0, 0) = some (.mram, 1))) &&
      (pagedStep .allocator noPaths s (.cpu 0)).any fun (t : OsState (Option Paged)) => t.freed 0)
    (by decide +kernel)
  simp only [Bool.and_eq_true, decide_eq_true_eq, Option.any_eq_true] at hp
  obtain ⟨⟨hruns, m, hm, hown⟩, t, ht, hfreed⟩ := hp
  exact ⟨s, hs.mono fun _ _ => stepConserves_of_quiet noPaths, hruns, ⟨m, hm, hown⟩, t, ht, hfreed⟩

/-- The process has two pages, in frames 0 and 1. -/
theorem frames_conserved_allocated :
    ∃ s, (∃ m, s.mem = some m ∧ m.sys.own (0, 0) = some (.mram, 1)) ∧ FramesConserved s := by
  obtain ⟨s, hs, -, hm, -⟩ := allocated_in_first_slot
  exact ⟨s, hm, frames_conserved hs⟩

/-- It has finished and frame 1 is neither free nor in a page of a process that is
there. -/
theorem finished_process_keeps_frames :
    ∃ t, PagedReachable .allocator noPaths 1024 1024 (fun _ _ => True) t ∧ t.freed 0 = true ∧
      ¬FramesConserved t := by
  obtain ⟨s, hs, hruns, ⟨m, hm, hown⟩, t, ht, hfreed⟩ := allocated_in_first_slot
  obtain ⟨m1, hm1, hinv⟩ := pagedInv_reachable hs
  obtain rfl : m = m1 := Option.some.inj (hm.symm.trans hm1)
  refine ⟨t, .step (hs.mono fun _ _ _ => trivial) trivial ht, hfreed, ?_⟩
  have hmem : t.mem = s.mem := by
    rcases mem_osStep (osStep_step (Option.filter_eq_some_iff.mp ht).1) with
      ⟨i, hi, -⟩ | ⟨i, -, hmem, -⟩ | ⟨hmem, -⟩
    · exact absurd (hruns.symm.trans hi) (by simp)
    · exact hmem
    · exact hmem
  rintro ⟨m2, hm2, hall⟩
  obtain rfl : m = m2 := Option.some.inj (hm.symm.trans (hmem.symm.trans hm2))
  rcases hall .mram 1 (hinv.frames.inside hown) with ⟨hone, -⟩ | ⟨-, x, ⟨hthere, hx⟩, -⟩
  · have hpos : 0 < (m.sys.dev .mram).freeFpList.count 1 := by omega
    exact hinv.frames.owns.busy hown (List.count_pos_iff.mp hpos)
  · obtain rfl := hinv.frames.owns.alone hx hown
    exact hthere (Or.inl hfreed)

end OsSim.Os
