import OsSim.Base.Runs
import OsSim.Mem.Frames

/-!
# The replacement queue (mm.c:87-131, libmem.c:462-491)

`fifo_pgn` against the pages that are in RAM, and when each came in. A growth
enlists one page, after its loop and so the page one past those it mapped
(`mm.c:127`): the list is what `find_victim_page` needs only as long as no
growth was served.
-/

namespace OsSim.Mem
open OsSim.Base

/-- The page `n` is in RAM. -/
def Mm.Resident (mm : Mm) (n : ℕ) : Prop := n < pagingMaxPgn ∧ ResidentPte (mm.pgd n)

instance (mm : Mm) (n : ℕ) : Decidable (mm.Resident n) := inferInstanceAs (Decidable (_ ∧ _))

/-- A process with the time at which each page last came in. -/
structure ReplState where
  proc : Pcb
  clock : ℕ
  since : ℕ → ℕ

inductive ReplOp where
  | grow (incSz : BitVec 32)
  | getpage (pgn : ℕ)
  deriving DecidableEq

def replCall (proc : Pcb) : ReplOp → Option Pcb
  | .grow incSz => (incVmaLimit proc 0 incSz.toInt).map fun (_, proc) => proc
  | .getpage pgn => (pgGetpage proc pgn).map fun (_, _, proc) => proc

/-- The pages a step brings in come in one after the other, the lowest first. -/
def replStep (s : ReplState) (op : ReplOp) : Option ReplState :=
  (replCall s.proc op).map fun proc =>
    { proc := proc
      clock := s.clock + pagingMaxPgn
      since := fun n =>
        if proc.mm.Resident n ∧ ¬s.proc.mm.Resident n then s.clock + n else s.since n }

/-- A process after `init_mm` with no page in RAM, over any devices. -/
def replSystem : System ReplState ReplOp where
  init s := ∃ pgd symrgtbl, s.proc.mm = initMm pgd symrgtbl [] ∧
    ∀ n, ¬s.proc.mm.Resident n
  next s op t := replStep s op = some t

/-- `fifo_pgn` is the pages in RAM, each once, the newest first. -/
structure TracksResidency (s : ReplState) : Prop where
  mem_iff : ∀ n, n ∈ s.proc.mm.fifoPgn ↔ s.proc.mm.Resident n
  nodup : s.proc.mm.fifoPgn.Nodup
  ordered : s.proc.mm.fifoPgn.Pairwise fun newer older => s.since older < s.since newer

/-- `find_victim_page` answers the page that has been in RAM longest. -/
def VictimLongest (s : ReplState) : Prop :=
  ∀ vicpgn mm, findVictimPage s.proc.mm = some (vicpgn, mm) →
    s.proc.mm.Resident vicpgn ∧ ∀ n, s.proc.mm.Resident n → s.since vicpgn ≤ s.since n

/-- The step is not a growth that finds as many free frames as it needs. -/
def NotServed (s : ReplState) : ReplOp → Prop
  | .grow incSz => s.proc.freeFrames.length < growthPages incSz.toInt
  | .getpage _ => True

instance (s : ReplState) : (op : ReplOp) → Decidable (NotServed s op)
  | .grow _ => inferInstanceAs (Decidable (_ < _))
  | .getpage _ => inferInstanceAs (Decidable True)

/-- The last page of a list in the order of arrival arrived first. -/
theorem TracksResidency.victimLongest {s : ReplState} (h : TracksResidency s) :
    VictimLongest s := by
  intro vicpgn mm hvic
  obtain ⟨last, hlast, heq⟩ := Option.map_eq_some_iff.mp hvic
  obtain rfl : last = vicpgn := congrArg Prod.fst heq
  obtain ⟨newer, hfifo⟩ := List.getLast?_eq_some_iff.mp hlast
  refine ⟨(h.mem_iff last).mp (hfifo ▸ by simp), fun n hn => ?_⟩
  have hmem := (h.mem_iff n).mpr hn
  have hord := h.ordered
  rw [hfifo] at hmem hord
  rcases List.mem_append.mp hmem with hnewer | hlast'
  · exact ((List.pairwise_append.mp hord).2.2 n hnewer last (by simp)).le
  · rw [List.mem_singleton.mp hlast']

/-! ### Up to the first growth that is served -/

/-- No page is mapped and none is enlisted. -/
structure NothingMapped (s : ReplState) : Prop where
  heap : HeapIs s.proc.mm 0 [⟨0, 0⟩]
  fifo : s.proc.mm.fifoPgn = []
  resident : ∀ n, ¬s.proc.mm.Resident n

theorem NothingMapped.tracks {s : ReplState} (h : NothingMapped s) : TracksResidency s where
  mem_iff n := by simp [h.fifo, h.resident n]
  nodup := by simp [h.fifo]
  ordered := by simp [h.fifo]

theorem nothingMapped_init {s : ReplState} (h : replSystem.init s) : NothingMapped s := by
  obtain ⟨pgd, symrgtbl, hmm, hres⟩ := h
  exact ⟨by rw [hmm]; rfl, by rw [hmm]; rfl, hres⟩

/-- Without a victim `pg_getpage` can only answer a page that is `PRESENT`. -/
theorem pgGetpage_no_victim {proc proc' : Pcb} {pgn : ℕ} (hfifo : proc.mm.fifoPgn = [])
    {rc : ℤ} {fpn : Option ℕ} (h : pgGetpage proc pgn = some (rc, fpn, proc')) :
    proc'.mm = proc.mm := by
  cases (pgGetpage_step h).2.2 with
  | hit hpresent hmm hdev => exact hmm
  | fault vic swpfpn older frames habsent hvic => simp [hfifo] at hvic

theorem replStep_proc {s t : ReplState} {op : ReplOp} (hnext : replStep s op = some t) :
    replCall s.proc op = some t.proc := by
  obtain ⟨proc, hcall, rfl⟩ := Option.map_eq_some_iff.mp hnext
  exact hcall

theorem NothingMapped.grow {s t : ReplState} {incSz : BitVec 32} (h : NothingMapped s)
    (hnext : replStep s (.grow incSz) = some t) :
    ∃ rc, s.proc.grow 0 [⟨0, 0⟩] incSz.toInt = some (rc, t.proc) := by
  obtain ⟨⟨rc, proc⟩, hinc, hproc⟩ := Option.map_eq_some_iff.mp (replStep_proc hnext)
  rw [incVmaLimit_zero h.heap] at hinc
  exact ⟨rc, hproc ▸ hinc⟩

theorem nothingMapped_step {s t : ReplState} {op : ReplOp} (h : NothingMapped s)
    (hok : NotServed s op) (hnext : replStep s op = some t) : NothingMapped t := by
  cases op with
  | grow incSz =>
    obtain ⟨rc, hgrow⟩ := h.grow hnext
    have hshort : s.proc.freeFrames.length < growthPages incSz.toInt := hok
    rw [Pcb.grow, if_pos hshort] at hgrow
    obtain ⟨-, hproc⟩ := Prod.mk.inj (Option.some.inj hgrow)
    have hbrk : toULong (toInt ((0 : ℕ) : ℤ)) = 0 := by
      rw [toInt_of_range (by omega) (by omega), toULong_natCast (by omega)]
    have hmm : t.proc.mm = { s.proc.mm with mmap := [⟨0, 0, 0, 0, [⟨0, 0⟩]⟩] } := by
      rw [← hproc, Pcb.growShort, hbrk]
    exact ⟨by rw [hmm]; rfl, by rw [hmm]; exact h.fifo, by rw [hmm]; exact h.resident⟩
  | getpage pgn =>
    obtain ⟨⟨rc, fpn, proc⟩, hpage, hproc⟩ := Option.map_eq_some_iff.mp (replStep_proc hnext)
    have hmm : t.proc.mm = s.proc.mm := hproc ▸ pgGetpage_no_victim h.fifo hpage
    exact ⟨by rw [hmm]; exact h.heap, by rw [hmm]; exact h.fifo, by rw [hmm]; exact h.resident⟩

/-- A growth that is served enlists the page after those it maps. -/
theorem not_tracks_of_served {s t : ReplState} {op : ReplOp} (h : NothingMapped s)
    (hserved : ¬NotServed s op) (hnext : replStep s op = some t) : ¬TracksResidency t := by
  cases op with
  | grow incSz =>
    obtain ⟨rc, hgrow⟩ := h.grow hnext
    have henough : growthPages incSz.toInt ≤ s.proc.freeFrames.length := not_lt.mp hserved
    rw [Pcb.grow, if_neg (not_lt.mpr henough)] at hgrow
    split_ifs at hgrow with hroom
    obtain ⟨-, hproc⟩ := Prod.mk.inj (Option.some.inj hgrow)
    have hpgn := @pagingPgn_brk 0 (by decide)
    rw [Nat.mul_zero] at hpgn
    have hpgd : t.proc.mm.pgd = mapFrames 0
        (s.proc.freeFrames.take (growthPages incSz.toInt)).reverse s.proc.mm.pgd := by
      rw [← hproc, Pcb.growTo, hpgn]
    have hfifo : t.proc.mm.fifoPgn = growthPages incSz.toInt :: s.proc.mm.fifoPgn := by
      rw [← hproc, Pcb.growTo, hpgn, Nat.zero_add]
    intro htracks
    obtain ⟨hlt, hres⟩ := (htracks.mem_iff (growthPages incSz.toInt)).mp (by simp [hfifo])
    -- the page enlisted is the first one the growth did not map
    rw [hpgd, mapFrames_above _ _ (by simp)] at hres
    exact h.resident _ ⟨hlt, hres⟩
  | getpage pgn => exact absurd trivial hserved

/-- In every run without a served growth the list tracks the pages in RAM and the
victim is the oldest; the first growth that is served ends that. -/
theorem tracksResidency_iff {s : ReplState} (h : Reachable replSystem NotServed s) :
    TracksResidency s ∧ VictimLongest s ∧ ∀ op t, replStep s op = some t →
      (TracksResidency t ∧ VictimLongest t ↔ NotServed s op) := by
  have hinv : NothingMapped s := by
    apply Reachable.invariant NothingMapped _ _ h
    · intro s0 h0
      exact nothingMapped_init h0
    · intro s1 op t hs hok hnext
      exact nothingMapped_step hs hok hnext
  refine ⟨hinv.tracks, hinv.tracks.victimLongest, fun op t hnext => ⟨fun htracks => ?_, fun hok => ?_⟩⟩
  · by_contra hok
    exact not_tracks_of_served hinv hok hnext htracks.1
  · have htracks := (nothingMapped_step hinv hok hnext).tracks
    exact ⟨htracks, htracks.victimLongest⟩

/-- A process over `ram` bytes of RAM and 1 kB of swap. -/
def ReplState.start (ram : ℕ) : ReplState where
  proc := ⟨.fresh, fun d => match d with
    | .mram => ramDevice ram
    | .activeMswp => ramDevice 1024⟩
  clock := 0
  since _ := 0

theorem replSystem_start (ram : ℕ) : replSystem.init (.start ram) := by
  refine ⟨_, _, rfl, fun n hn => ?_⟩
  have hzero : ¬ResidentPte 0 := by decide
  exact hzero hn.2

/-- A growth by two pages over one frame fails and leaves the list as it was. -/
theorem tracksResidency_failed_growth :
    ∃ s, TracksResidency s ∧ VictimLongest s ∧ ∀ op t, replStep s op = some t →
      (TracksResidency t ∧ VictimLongest t ↔ NotServed s op) := by
  have hok : NotServed (.start 256) (.grow 512) := by decide +kernel
  obtain ⟨s, hs⟩ : ∃ s, replStep (.start 256) (.grow 512) = some s :=
    Option.isSome_iff_exists.mp (by decide +kernel)
  exact ⟨s, tracksResidency_iff (.step (.init (replSystem_start 256)) hok hs)⟩

/-- A growth by one page: page 0 is in RAM and not enlisted, page 1 is enlisted
and becomes the victim of the next fault. -/
theorem growth_enlists_unmapped_page :
    ∃ s, Reachable replSystem (fun _ _ => True) s ∧ s.proc.mm.Resident 0 ∧
      ¬s.proc.mm.Resident 1 ∧ s.proc.mm.fifoPgn = [1] ∧ ¬TracksResidency s ∧
      ¬VictimLongest s := by
  have hrun : (replStep (.start 512) (.grow 256)).any (fun s => decide (s.proc.mm.Resident 0 ∧
      ¬s.proc.mm.Resident 1 ∧ s.proc.mm.fifoPgn = [1])) = true := by decide +kernel
  obtain ⟨s, hs, hp⟩ := (Option.any_eq_true _ _).mp hrun
  obtain ⟨h0, h1, hfifo⟩ := of_decide_eq_true hp
  refine ⟨s, .step (.init (replSystem_start 512)) trivial hs, h0, h1, hfifo, fun h => ?_, fun h => ?_⟩
  · exact h1 ((h.mem_iff 1).mp (by simp [hfifo]))
  · exact h1 (h 1 _ (by simp only [findVictimPage, hfifo]; rfl)).1

end OsSim.Mem
