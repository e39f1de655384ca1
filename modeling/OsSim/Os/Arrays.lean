import OsSim.Mem.Arrays
import OsSim.Os.Interleaving

/-!
# What a programmer may rely on

A program that stays inside the regions it allocated, and inside a quota of RAM
pages, sees arrays that nobody else touches: on the paged memory, under every
interleaving, each of its calls succeeds and each read of a byte it has written
returns what it wrote last. The condition is about the text of each program by
itself (and no text has a system call 101), and the quotas have to fit into RAM.
-/

namespace OsSim.Os
open OsSim.Base OsSim.Sched OsSim.Mem

/-- An instruction of a process that knows its arrays only. -/
def issueArrays (ins : Inst) (a : Arrays) : Option (Reply × Arrays) :=
  match memOp ins with
  | none => some (.noCall, a)
  | some op => a.call op

def runArrays (quota : ℕ) (text : List Inst) : Option (List Reply × Arrays) :=
  solo issueArrays text (.fresh quota)

/-- What the program is answered on its arrays. -/
def replies (quota : ℕ) (text : List Inst) : List Reply := (runArrays quota text).elim [] Prod.fst

/-- Every program stays inside its arrays and its quota, and RAM has the frames of all
quotas. -/
structure WithinQuotas (cfg : Config) (ramSize : ℕ) (quota : ℕ → ℕ) : Prop where
  runs : ∀ i < cfg.numProcesses, (runArrays (quota i) (cfg.text i)).isSome = true
  pages : ∑ i ∈ Finset.range cfg.numProcesses, quota i ≤ ramSize / 256
  numbered : ramSize / 256 ≤ 8192

instance (cfg : Config) (ramSize : ℕ) (quota : ℕ → ℕ) : Decidable (WithinQuotas cfg ramSize quota) :=
  decidable_of_iff ((∀ i < cfg.numProcesses, (runArrays (quota i) (cfg.text i)).isSome = true) ∧
      ∑ i ∈ Finset.range cfg.numProcesses, quota i ≤ ramSize / 256 ∧ ramSize / 256 ≤ 8192)
    ⟨fun h => ⟨h.1, h.2.1, h.2.2⟩, fun h => ⟨h.runs, h.pages, h.numbered⟩⟩

/-- Every process was answered as its arrays allow, up to its program counter, and the
next instruction of every process is defined. -/
structure SeesArrays (cfg : Config) (prog : ℕ → Program) (quota : ℕ → ℕ) (l : Traced) : Prop where
  answers : ∀ i < cfg.numProcesses, List.Forall₂ Reply.Allows
    ((replies (quota i) (cfg.text i)).take (l.os.pcOf i)) (l.answers i)
  finished : ∀ i, l.os.freed i = true →
    List.Forall₂ Reply.Allows (replies (quota i) (cfg.text i)) (l.answers i)
  defined : ∀ th t, osStep cfg (pagedEffects cfg prog) l.os th = some t → t.mem.isSome = true

section Arrays
variable {cfg : Config} {prog : ℕ → Program} {ramSize swapSize : ℕ} {quota : ℕ → ℕ}

theorem issueArrays_heap {q : ℕ} (hq : q ≤ 8192) {ins : Inst} {heap : Heap} {a a' : Arrays}
    {reply : Reply} (ha : HoldsArrays q heap a) (h : issueArrays ins a = some (reply, a')) :
    ∃ answer heap', issueAlone ins heap = some (answer, heap') ∧ reply.Allows answer ∧
      HoldsArrays q heap' a' := by
  rw [issueArrays] at h
  rw [issueAlone]
  cases hop : memOp ins with
  | none =>
    rw [hop] at h
    obtain ⟨rfl, rfl⟩ := Prod.mk.inj (Option.some.inj h)
    exact ⟨none, heap, rfl, rfl, ha⟩
  | some op =>
    rw [hop] at h
    obtain ⟨ret, heap', hcall, hallows, ha'⟩ := ha.call hq h
    exact ⟨some ret, heap', by dsimp only; rw [hcall, Option.map_some], hallows, ha'⟩

/-- A program that runs on its arrays runs alone, on no more pages than its quota. -/
theorem runArrays_alone {q : ℕ} (hq : q ≤ 8192) {text : List Inst}
    (h : (runArrays q text).isSome = true) : (runAlone text).isSome = true ∧ pagesAlone text ≤ q ∧
      List.Forall₂ Reply.Allows (replies q text) (answersAlone text) := by
  obtain ⟨⟨all, last⟩, hall⟩ := Option.isSome_iff_exists.mp h
  have hsim : ∃ answers heap, runAlone text = some (answers, heap) ∧
      List.Forall₂ Reply.Allows all answers ∧ HoldsArrays q heap last :=
    solo_simulates Reply.Allows (HoldsArrays q) (holdsArrays_fresh q) hall (issueArrays_heap hq)
  obtain ⟨answers, heap, halone, hallows, hlast⟩ := hsim
  have hroom := hlast.room
  rw [pagesAlone, answersAlone, replies, halone, hall]
  dsimp only [Option.elim_some, Option.isSome_some]
  exact ⟨rfl, by omega, hallows⟩

theorem WithinQuotas.quota_le (h : WithinQuotas cfg ramSize quota) {i : ℕ}
    (hi : i < cfg.numProcesses) : quota i ≤ 8192 := by
  have hle : quota i ≤ ∑ j ∈ Finset.range cfg.numProcesses, quota j :=
    Finset.single_le_sum (fun _ _ => Nat.zero_le _) (Finset.mem_range.mpr hi)
  exact hle.trans (h.pages.trans h.numbered)

theorem WithinQuotas.runAlone (h : WithinQuotas cfg ramSize quota) : RunAlone cfg ramSize := by
  have heach : ∀ i < cfg.numProcesses, _ := fun i hi =>
    runArrays_alone (h.quota_le hi) (h.runs i hi)
  constructor
  · intro i hi
    exact (heach i hi).1
  · apply le_trans _ h.pages
    apply Finset.sum_le_sum
    intro i hi
    exact (heach i (Finset.mem_range.mp hi)).2.1
  · exact h.numbered

/-- Under every interleaving each program sees its arrays. -/
theorem programs_see_arrays (hno : NoKillall cfg) (h : WithinQuotas cfg ramSize quota) {l : Traced}
    (hl : TracedReachable cfg prog ramSize swapSize l) : SeesArrays cfg prog quota l := by
  have hallows : ∀ i < cfg.numProcesses,
      List.Forall₂ Reply.Allows (replies (quota i) (cfg.text i)) (answersAlone (cfg.text i)) :=
    fun i hi => (runArrays_alone (h.quota_le hi) (h.runs i hi)).2.2
  have hanswers : ∀ i < cfg.numProcesses, List.Forall₂ Reply.Allows
      ((replies (quota i) (cfg.text i)).take (l.os.pcOf i)) (l.answers i) := by
    intro i hi
    rw [answers_alone hno h.runAlone hl hi]
    exact List.forall₂_take _ (hallows i hi)
  constructor
  · exact hanswers
  · intro i hfreed
    obtain ⟨hi, hend⟩ := freed_at_end hno hl hfreed
    obtain ⟨⟨all, last⟩, hall⟩ := Option.isSome_iff_exists.mp (h.runs i hi)
    have hlen : all.length = cfg.size i := solo_length hall
    have hlast := hanswers i hi
    rw [replies, hall, Option.elim_some] at hlast ⊢
    rwa [hend, List.take_of_length_le hlen.le] at hlast
  · intro th s' hstep
    exact defined_alone hno h.runAlone hl th hstep

end Arrays

theorem programs_see_arrays_pair :
    ∃ l : Traced, l.os.freed 0 = true ∧ readBack (l.answers 0) = [7] ∧
      readBack (l.answers 1) = [8] ∧ SeesArrays .pair noPaths (fun _ => 2) l := by
  obtain ⟨hfreed0, -, h0, h1⟩ := pairRun_ends
  exact ⟨pairRun, hfreed0, h0, h1,
    programs_see_arrays noKillall_pair (by decide +kernel) pairRun_reachable⟩

end OsSim.Os
