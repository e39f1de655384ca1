import Mathlib

/-!
# Linked chains

Nodes named by `A`, each with a pointer to the next. `next a` is `none` where no
node `a` exists, `some none` at the null pointer. `Linked next p l` says that the
pointers lead from `p` through exactly the nodes of `l` to the null pointer; such
a chain visits no node twice.
-/

namespace OsSim.Base

variable {A : Type}

inductive Linked (next : A → Option (Option A)) : Option A → List A → Prop where
  | nil : Linked next none []
  | cons {a : A} {q : Option A} {l : List A} : next a = some q → Linked next q l →
      Linked next (some a) (a :: l)

variable {next next' : A → Option (Option A)} {p : Option A} {l : List A}

theorem Linked.unique {l' : List A} (h : Linked next p l) (h' : Linked next p l') : l = l' := by
  induction h generalizing l' with
  | nil =>
    cases h'
    rfl
  | cons ha _ ih =>
    cases h' with
    | cons ha' hl' =>
      obtain rfl := Option.some.inj (ha.symm.trans ha')
      rw [ih hl']

theorem linked_none : Linked next none l ↔ l = [] := by
  constructor
  · intro h
    exact h.unique .nil
  · intro h
    subst h
    exact .nil

theorem linked_some {a : A} (h : Linked next (some a) l) :
    ∃ q rest, next a = some q ∧ Linked next q rest ∧ l = a :: rest := by
  cases h with
  | cons ha hrest => exact ⟨_, _, ha, hrest, rfl⟩

/-- Only the nodes of the chain matter. -/
theorem Linked.congr (h : Linked next p l) (hsame : ∀ a ∈ l, next' a = next a) :
    Linked next' p l := by
  induction h with
  | nil => exact .nil
  | cons ha _ ih =>
    exact .cons ((hsame _ (List.mem_cons_self ..)).trans ha)
      (ih fun b hb => hsame b (List.mem_cons_of_mem _ hb))

theorem Linked.exists_node (h : Linked next p l) {a : A} (ha : a ∈ l) : ∃ q, next a = some q := by
  induction h with
  | nil => exact absurd ha List.not_mem_nil
  | cons hnext _ ih =>
    cases List.mem_cons.mp ha with
    | inl heq => exact ⟨_, heq ▸ hnext⟩
    | inr hmem => exact ih hmem

theorem Linked.suffix (h : Linked next p l) {before after : List A} {a : A}
    (hl : l = before ++ a :: after) : Linked next (some a) (a :: after) := by
  induction before generalizing p l with
  | nil =>
    subst hl
    cases h with
    | cons ha hrest => exact .cons ha hrest
  | cons b before ih =>
    subst hl
    cases h with
    | cons _ hrest => exact ih hrest rfl

/-- A node that came twice would be followed by two chains of different length. -/
theorem Linked.nodup (h : Linked next p l) : l.Nodup := by
  induction h with
  | nil => exact List.nodup_nil
  | cons ha hrest ih =>
    refine List.nodup_cons.mpr ⟨fun hmem => ?_, ih⟩
    obtain ⟨before, after, hl⟩ := List.append_of_mem hmem
    have hagain := hrest.suffix hl
    have hsame := (Linked.cons ha hrest).unique hagain
    have hlen := congrArg List.length hsame
    rw [hl] at hlen
    simp only [List.length_cons, List.length_append] at hlen
    omega

/-- The head taken away and its node freed. -/
theorem Linked.pop [DecidableEq A] {a : A} (h : Linked next (some a) (a :: l)) :
    ∃ q, next a = some q ∧ Linked (Function.update next a none) q l := by
  obtain ⟨ha, -⟩ := List.nodup_cons.mp h.nodup
  cases h with
  | cons hnext hrest =>
    refine ⟨_, hnext, hrest.congr fun b hb => Function.update_of_ne ?_ _ _⟩
    intro heq
    exact ha (heq ▸ hb)

/-- A new node put in front. -/
theorem Linked.push [DecidableEq A] (h : Linked next p l) {a : A} (ha : next a = none) :
    Linked (Function.update next a (some p)) (some a) (a :: l) := by
  refine .cons (Function.update_self ..) (h.congr fun b hb => Function.update_of_ne ?_ _ _)
  rintro rfl
  obtain ⟨q, hq⟩ := h.exists_node hb
  rw [ha] at hq
  cases hq

/-- Nodes `f 0, .., f k` that point one to the next, in front of a chain. -/
theorem Linked.of_path (f : ℕ → A) {k : ℕ} (hpath : ∀ i < k, next (f i) = some (some (f (i + 1))))
    (hlast : next (f k) = some p) (h : Linked next p l) :
    Linked next (some (f 0)) ((List.range (k + 1)).map f ++ l) := by
  induction k generalizing p l with
  | zero => exact .cons hlast h
  | succ k ih =>
    have hrest := ih (fun i hi => hpath i (by omega)) (hpath k (by omega)) (.cons hlast h)
    rw [List.range_succ, List.map_append, List.append_assoc]
    exact hrest

/-! ### The end of a chain -/

/-- `while (a->next) { prev = a; a = a->next; }`: the node before the last one and the last
one, within that many tests. -/
def walkLast (next : A → Option (Option A)) : ℕ → Option A → A → Option (Option A × A)
  | 0, _, _ => none
  | fuel + 1, prev, a =>
    match next a with
    | none => none
    | some none => some (prev, a)
    | some (some b) => walkLast next fuel (some a) b

theorem walkLast_linked {a b : A} (h : Linked next (some a) (l ++ [b])) {fuel : ℕ}
    (hfuel : l.length < fuel) (prev : Option A) :
    walkLast next fuel prev a = some (l.getLast?.or prev, b) := by
  induction l generalizing a fuel prev with
  | nil =>
    cases fuel with
    | zero => exact absurd hfuel (Nat.not_lt_zero _)
    | succ fuel =>
      cases h with
      | cons hnext hrest =>
        cases hrest
        simp [walkLast, hnext]
  | cons c l ih =>
    cases fuel with
    | zero => exact absurd hfuel (Nat.not_lt_zero _)
    | succ fuel =>
      cases h with
      | @cons _ q _ hnext hrest =>
        cases q with
        | none => exact absurd (linked_none.mp hrest) (by simp)
        | some d =>
          have hwalk := ih hrest (Nat.lt_of_succ_lt_succ hfuel) (some c)
          simp only [walkLast, hnext, hwalk]
          rw [List.getLast?_cons]
          cases l.getLast? <;> rfl

/-- The last node taken off by clearing the pointer of the one before it. -/
theorem Linked.dropLast [DecidableEq A] {a b : A} (h : Linked next p (l ++ [a, b])) :
    Linked (Function.update next a (some none)) p (l ++ [a]) := by
  have hnodup := h.nodup
  induction l generalizing p with
  | nil =>
    cases h with
    | cons _ _ => exact .cons (Function.update_self ..) .nil
  | cons c l ih =>
    cases h with
    | cons hnext hrest =>
      obtain ⟨hc, hrestnodup⟩ := List.nodup_cons.mp hnodup
      have hne : c ≠ a := by
        intro heq
        exact hc (heq ▸ by simp)
      exact .cons ((Function.update_of_ne hne _ _).trans hnext) (ih hrest hrestnodup)

end OsSim.Base
