import Mathlib

/-!
# Counting

Sums over an initial segment in which one entry changes, and lists of sets
counted at a point. The sets are pairwise disjoint exactly when no point lies in
two of them, so a partition is a statement about counts, and operations that move
sets between the lists of a table keep it by arithmetic.
-/

namespace OsSim.Base

theorem sum_range_change {n k : ℕ} (f g : ℕ → ℕ) (hk : k < n) (h : ∀ i, i ≠ k → g i = f i) :
    ∑ i ∈ Finset.range n, g i + f k = ∑ i ∈ Finset.range n, f i + g k := by
  have hmem : k ∈ Finset.range n := Finset.mem_range.mpr hk
  rw [← Finset.add_sum_erase _ f hmem, ← Finset.add_sum_erase _ g hmem]
  have hrest : ∑ i ∈ (Finset.range n).erase k, g i = ∑ i ∈ (Finset.range n).erase k, f i :=
    Finset.sum_congr rfl fun i hi => h i (Finset.ne_of_mem_erase hi)
  omega

theorem sum_update {α : Type} (value : α → ℕ) {n k : ℕ} (f : ℕ → α) (a : α) (hk : k < n) :
    ∑ i ∈ Finset.range n, value (Function.update f k a i) + value (f k) =
      ∑ i ∈ Finset.range n, value (f i) + value a := by
  have h := sum_range_change (fun i => value (f i)) (fun i => value (Function.update f k a i)) hk
    fun i hi => by simp only [Function.update_of_ne hi]
  simpa only [Function.update_self] using h

theorem sum_count_update {α : Type} [DecidableEq α] {n k : ℕ} (f : ℕ → List α) (l : List α)
    (hk : k < n) (a : α) :
    ∑ i ∈ Finset.range n, (Function.update f k l i).count a + (f k).count a =
      ∑ i ∈ Finset.range n, (f i).count a + l.count a :=
  sum_update (List.count a) f l hk

theorem count_flatMap_range {α : Type} [DecidableEq α] (f : ℕ → List α) (n : ℕ) (a : α) :
    ((List.range n).flatMap f).count a = ∑ i ∈ Finset.range n, (f i).count a := by
  induction n with
  | zero => rfl
  | succ n ih => simp [List.range_succ, Finset.sum_range_succ, ih]

theorem count_pos_of_mem_range {α : Type} [DecidableEq α] {n k : ℕ} (f : ℕ → List α) {a : α}
    (hk : k < n) (h : a ∈ f k) : 0 < ∑ i ∈ Finset.range n, (f i).count a :=
  Finset.sum_pos' (fun _ _ => Nat.zero_le _)
    ⟨k, Finset.mem_range.mpr hk, List.count_pos_iff.mpr h⟩

theorem eq_of_sum_le_one {n j k : ℕ} {f : ℕ → ℕ} (h : ∑ i ∈ Finset.range n, f i ≤ 1) (hj : j < n)
    (hk : k < n) (hfj : 0 < f j) (hfk : 0 < f k) : j = k := by
  by_contra hne
  have hpair := Finset.sum_le_sum_of_subset (f := f) (s := {j, k}) (t := Finset.range n) (by
    intro i hi
    rcases Finset.mem_insert.mp hi with rfl | hi
    · exact Finset.mem_range.mpr hj
    · exact Finset.mem_range.mpr (Finset.mem_singleton.mp hi ▸ hk))
  rw [Finset.sum_pair hne] at hpair
  omega

/-! ### Sets counted at a point -/

section Cover
variable {α β : Type} (has : β → α → Prop) [∀ b x, Decidable (has b x)]

/-- How many entries of the list contain the point. -/
def cover (l : List β) (x : α) : ℕ := l.countP fun b => has b x

@[simp] theorem cover_nil (x : α) : cover has [] x = 0 := rfl

@[simp] theorem cover_cons (b : β) (l : List β) (x : α) :
    cover has (b :: l) x = cover has l x + if has b x then 1 else 0 := by
  simp [cover, List.countP_cons]

@[simp] theorem cover_append (l l' : List β) (x : α) :
    cover has (l ++ l') x = cover has l x + cover has l' x := List.countP_append

theorem cover_pos {l : List β} {x : α} : 0 < cover has l x ↔ ∃ b ∈ l, has b x := by
  simp [cover, List.countP_pos_iff]

/-- No point in two entries: the entries are pairwise disjoint. -/
theorem pairwise_of_cover_le_one {l : List β} (h : ∀ x, cover has l x ≤ 1) :
    l.Pairwise fun b c => ∀ x, ¬(has b x ∧ has c x) := by
  induction l with
  | nil => exact .nil
  | cons b l ih =>
    refine List.pairwise_cons.mpr ⟨fun c hc x hx => ?_, ih fun x => ?_⟩
    · have hpos := (cover_pos has).mpr ⟨c, hc, hx.2⟩
      have hle := h x
      rw [cover_cons, if_pos hx.1] at hle
      omega
    · have hle := h x
      rw [cover_cons] at hle
      omega

theorem cover_flatMap_range (f : ℕ → List β) (n : ℕ) (x : α) :
    cover has ((List.range n).flatMap f) x = ∑ i ∈ Finset.range n, cover has (f i) x := by
  induction n with
  | zero => rfl
  | succ n ih => simp [List.range_succ, Finset.sum_range_succ, ih]

end Cover

end OsSim.Base
