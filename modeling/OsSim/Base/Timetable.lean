import Mathlib

/-!
# Timetables

Machines work on jobs, slot by slot. A timetable lists who worked on what when.
It is feasible when no machine and no job is used twice in one slot; then no job
gets more work than there are slots since its release, and all of them together
no more than the machines have slots. The other way round, a job that is passed
over only in slots in which every machine is busy, or which are excused, is
passed over in no more slots than the work on the other jobs fills.
-/

namespace OsSim.Base

structure Entry (M J : Type) where
  slot : ℕ
  machine : M
  job : J
  deriving DecidableEq

variable {M J : Type}

structure Feasible (table : List (Entry M J)) : Prop where
  machine_once : table.Pairwise fun a b => a.slot = b.slot → a.machine ≠ b.machine
  job_once : table.Pairwise fun a b => a.slot = b.slot → a.job ≠ b.job

theorem feasible_nil : Feasible ([] : List (Entry M J)) := ⟨.nil, .nil⟩

theorem Feasible.cons {table : List (Entry M J)} (h : Feasible table) {a : Entry M J}
    (hnew : ∀ e ∈ table, e.slot = a.slot → e.machine ≠ a.machine ∧ e.job ≠ a.job) :
    Feasible (a :: table) where
  machine_once := List.pairwise_cons.mpr
    ⟨fun e he hslot => (hnew e he hslot.symm).1.symm, h.machine_once⟩
  job_once := List.pairwise_cons.mpr
    ⟨fun e he hslot => (hnew e he hslot.symm).2.symm, h.job_once⟩

/-- The entries are at different places, a place being a machine in a slot. -/
theorem Feasible.length_le [DecidableEq M] {table : List (Entry M J)} (h : Feasible table)
    {machines : Finset M} {last : ℕ}
    (hplaces : ∀ e ∈ table, e.machine ∈ machines ∧ e.slot < last) :
    table.length ≤ machines.card * last := by
  have hnodup : (table.map fun e => (e.machine, e.slot)).Nodup := by
    apply List.pairwise_map.mpr
    apply h.machine_once.imp
    intro a b hmachine heq
    exact hmachine (Prod.mk.inj heq).2 (Prod.mk.inj heq).1
  have hsub : (table.map fun e => (e.machine, e.slot)).toFinset ⊆
      machines ×ˢ Finset.range last := by
    intro place hplace
    obtain ⟨e, he, rfl⟩ := List.mem_map.mp (List.mem_toFinset.mp hplace)
    have := hplaces e he
    simp [this.1, this.2]
  have hcard := Finset.card_le_card hsub
  rw [List.toFinset_card_of_nodup hnodup, List.length_map, Finset.card_product,
    Finset.card_range] at hcard
  exact hcard

variable [DecidableEq J]

/-- The slots of work on a job. -/
def work (table : List (Entry M J)) (j : J) : ℕ := table.countP fun e => e.job = j

@[simp] theorem work_nil (j : J) : work ([] : List (Entry M J)) j = 0 := rfl

theorem work_cons (e : Entry M J) (table : List (Entry M J)) (j : J) :
    work (e :: table) j = work table j + if e.job = j then 1 else 0 := by
  simp [work, List.countP_cons]

/-- The entries of one job are in different slots. -/
theorem Feasible.work_le {table : List (Entry M J)} (h : Feasible table) {j : J} {first last : ℕ}
    (hslots : ∀ e ∈ table, e.job = j → first ≤ e.slot ∧ e.slot < last) :
    work table j ≤ last - first := by
  have hnodup : ((table.filter fun e => e.job = j).map Entry.slot).Nodup := by
    apply List.pairwise_map.mpr
    apply (h.job_once.filter _).imp_of_mem
    intro a b ha hb hjob hslot
    have hja : a.job = j := by simpa using (List.mem_filter.mp ha).2
    have hjb : b.job = j := by simpa using (List.mem_filter.mp hb).2
    exact hjob hslot (hja.trans hjb.symm)
  have hsub : ((table.filter fun e => e.job = j).map Entry.slot).toFinset ⊆
      Finset.Ico first last := by
    intro n hn
    obtain ⟨e, he, rfl⟩ := List.mem_map.mp (List.mem_toFinset.mp hn)
    obtain ⟨hmem, hjob⟩ := List.mem_filter.mp he
    exact Finset.mem_Ico.mpr (hslots e hmem (by simpa using hjob))
  have hcard := Finset.card_le_card hsub
  rw [List.toFinset_card_of_nodup hnodup, List.length_map, Nat.card_Ico] at hcard
  rw [work, List.countP_eq_length_filter]
  exact hcard

/-- All the work is work on some job. -/
theorem sum_work {table : List (Entry M J)} {jobs : Finset J} (h : ∀ e ∈ table, e.job ∈ jobs) :
    ∑ j ∈ jobs, work table j = table.length := by
  induction table with
  | nil => simp
  | cons e table ih =>
    have hrest := ih fun a ha => h a (List.mem_cons_of_mem _ ha)
    have hone : ∑ j ∈ jobs, (if e.job = j then 1 else 0) = 1 := by
      rw [Finset.sum_ite_eq, if_pos (h e (List.mem_cons_self ..))]
    simp only [work_cons, Finset.sum_add_distrib, hrest, hone, List.length_cons]

theorem countP_ne_job {table : List (Entry M J)} {jobs : Finset J} {j : J}
    (h : ∀ e ∈ table, e.job ∈ jobs) (hj : j ∈ jobs) :
    table.countP (fun e => e.job ≠ j) = ∑ k ∈ jobs.erase j, work table k := by
  have hall := sum_work h
  have hsplit : table.length = work table j + table.countP fun e => e.job ≠ j := by
    simpa [work] using
      List.length_eq_countP_add_countP (fun e : Entry M J => decide (e.job = j))
  have hone := Finset.add_sum_erase jobs (work table) hj
  omega

/-! ### A job that is passed over -/

/-- In slot `t` some machine works on `j`. -/
def WorksOn (table : List (Entry M J)) (t : ℕ) (j : J) : Prop :=
  ∃ e ∈ table, e.slot = t ∧ e.job = j

/-- In slot `t` every one of the machines is busy. -/
def AllBusy (table : List (Entry M J)) (machines : Finset M) (t : ℕ) : Prop :=
  ∀ m ∈ machines, ∃ e ∈ table, e.slot = t ∧ e.machine = m

theorem card_worksOn_le {table : List (Entry M J)} {j : J} {slots : Finset ℕ}
    (h : ∀ t ∈ slots, WorksOn table t j) : slots.card ≤ work table j := by
  have hsub : slots ⊆ ((table.filter fun e => e.job = j).map Entry.slot).toFinset := by
    intro t ht
    obtain ⟨e, he, hslot, hjob⟩ := h t ht
    exact List.mem_toFinset.mpr
      (List.mem_map.mpr ⟨e, List.mem_filter.mpr ⟨he, by simpa using hjob⟩, hslot⟩)
  calc slots.card
      ≤ ((table.filter fun e => e.job = j).map Entry.slot).toFinset.card :=
        Finset.card_le_card hsub
    _ ≤ ((table.filter fun e => e.job = j).map Entry.slot).length := List.toFinset_card_le _
    _ = work table j := by rw [List.length_map, work, List.countP_eq_length_filter]

/-- Slots in which every machine is busy, none of them with `j`, are filled by the other jobs. -/
theorem card_allBusy_le [DecidableEq M] {table : List (Entry M J)} {machines : Finset M} {j : J}
    {slots : Finset ℕ} (hbusy : ∀ t ∈ slots, AllBusy table machines t)
    (hother : ∀ t ∈ slots, ¬WorksOn table t j) :
    machines.card * slots.card ≤ table.countP fun e => e.job ≠ j := by
  have hsub : machines ×ˢ slots ⊆
      ((table.filter fun e => e.job ≠ j).map fun e => (e.machine, e.slot)).toFinset := by
    intro place hplace
    obtain ⟨hm, ht⟩ := Finset.mem_product.mp hplace
    obtain ⟨e, he, hslot, hmachine⟩ := hbusy _ ht _ hm
    have hjob : e.job ≠ j := fun hj => hother _ ht ⟨e, he, hslot, hj⟩
    refine List.mem_toFinset.mpr (List.mem_map.mpr ⟨e, List.mem_filter.mpr ⟨he, ?_⟩, ?_⟩)
    · simpa using hjob
    · rw [hslot, hmachine]
  calc machines.card * slots.card = (machines ×ˢ slots).card := (Finset.card_product ..).symm
    _ ≤ _ := Finset.card_le_card hsub
    _ ≤ _ := List.toFinset_card_le _
    _ = table.countP fun e => e.job ≠ j := by
        rw [List.length_map, List.countP_eq_length_filter]

/-- List scheduling: from its release on, a job is worked on, or every machine is
busy, or the slot is excused. Then the slots are no more than the work on the job,
the excused ones, and what the other jobs can fill. -/
theorem slots_le_of_greedy [DecidableEq M] {table : List (Entry M J)} {machines : Finset M}
    {j : J} {excused : Finset ℕ} {first last : ℕ}
    (hgreedy : ∀ t, first ≤ t → t < last →
      t ∈ excused ∨ WorksOn table t j ∨ AllBusy table machines t) :
    machines.card * (last - first) ≤
      machines.card * (work table j + excused.card) + table.countP fun e => e.job ≠ j := by
  classical
  let own := (Finset.Ico first last).filter fun t => WorksOn table t j
  let full := (Finset.Ico first last).filter fun t => ¬WorksOn table t j ∧ AllBusy table machines t
  have hcover : Finset.Ico first last ⊆ own ∪ excused ∪ full := by
    intro t ht
    have hwhen := hgreedy t (Finset.mem_Ico.mp ht).1 (Finset.mem_Ico.mp ht).2
    by_cases hj : WorksOn table t j
    · simp [own, ht, hj]
    · rcases hwhen with hex | hown | hbusy
      · simp [hex]
      · exact absurd hown hj
      · simp only [Finset.mem_union, full, Finset.mem_filter]
        exact Or.inr ⟨ht, hj, hbusy⟩
  have hown : own.card ≤ work table j :=
    card_worksOn_le fun t ht => (Finset.mem_filter.mp ht).2
  have hfull : machines.card * full.card ≤ table.countP fun e => e.job ≠ j :=
    card_allBusy_le (fun t ht => (Finset.mem_filter.mp ht).2.2)
      fun t ht => (Finset.mem_filter.mp ht).2.1
  have hslots : last - first ≤ work table j + excused.card + full.card := by
    calc last - first = (Finset.Ico first last).card := (Nat.card_Ico ..).symm
      _ ≤ (own ∪ excused ∪ full).card := Finset.card_le_card hcover
      _ ≤ (own ∪ excused).card + full.card := Finset.card_union_le ..
      _ ≤ own.card + excused.card + full.card :=
        Nat.add_le_add_right (Finset.card_union_le ..) _
      _ ≤ work table j + excused.card + full.card := by omega
  calc machines.card * (last - first)
      ≤ machines.card * (work table j + excused.card + full.card) :=
        Nat.mul_le_mul_left _ hslots
    _ = machines.card * (work table j + excused.card) + machines.card * full.card :=
        Nat.mul_add ..
    _ ≤ _ := Nat.add_le_add_left hfull _

end OsSim.Base
