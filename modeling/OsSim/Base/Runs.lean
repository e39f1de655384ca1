import Mathlib

/-!
# Transition systems and their runs

A system has initial states and labelled steps. `Reachable S ok` holds of the
states at the end of the runs in which every step meets the side condition
`ok`; with `ok` always true these are all the reachable states. Nothing here
names the program: the scheduler, the timer, the simulation and the paged
memory are instances.
-/

namespace OsSim.Base

structure System (σ α : Type) where
  init : σ → Prop
  next : σ → α → σ → Prop

/-- The system of a partial step function from one initial state. -/
def System.ofStep {σ α : Type} (s0 : σ) (step : σ → α → Option σ) : System σ α where
  init s := s = s0
  next s a t := step s a = some t

variable {σ α : Type}

inductive Reachable (S : System σ α) (ok : σ → α → Prop) : σ → Prop where
  | init {s : σ} : S.init s → Reachable S ok s
  | step {s t : σ} {a : α} : Reachable S ok s → ok s a → S.next s a t → Reachable S ok t

/-- The invariant rule: what holds initially and is kept by every admitted step
holds of every reachable state. -/
theorem Reachable.invariant {S : System σ α} {ok : σ → α → Prop} (I : σ → Prop)
    (hinit : ∀ s, S.init s → I s)
    (hstep : ∀ s a t, I s → ok s a → S.next s a t → I t)
    {s : σ} (h : Reachable S ok s) : I s := by
  induction h with
  | init h0 => exact hinit _ h0
  | step _ hok hnext ih => exact hstep _ _ _ ih hok hnext

theorem Reachable.mono {S : System σ α} {ok ok' : σ → α → Prop} (himp : ∀ s a, ok s a → ok' s a)
    {s : σ} (h : Reachable S ok s) : Reachable S ok' s := by
  induction h with
  | init h0 => exact .init h0
  | step _ hok hnext ih => exact .step ih (himp _ _ hok) hnext

/-- More initial states and more steps reach no less. -/
theorem Reachable.mono_system {S S' : System σ α} {ok : σ → α → Prop}
    (hinit : ∀ s, S.init s → S'.init s) (hnext : ∀ s a t, S.next s a t → S'.next s a t) {s : σ}
    (h : Reachable S ok s) : Reachable S' ok s := by
  induction h with
  | init h0 => exact .init (hinit _ h0)
  | step _ hok hstep ih => exact .step ih hok (hnext _ _ _ hstep)

/-- The run from the first state to the second that takes the steps of the list. -/
inductive Run (S : System σ α) : σ → List α → σ → Prop where
  | nil (s : σ) : Run S s [] s
  | cons {s m t : σ} {a : α} {rest : List α} : S.next s a m → Run S m rest t → Run S s (a :: rest) t

theorem Run.append {S : System σ α} {s m t : σ} {first rest : List α} (h : Run S s first m)
    (h' : Run S m rest t) : Run S s (first ++ rest) t := by
  induction h with
  | nil => exact h'
  | cons hnext _ ih => exact .cons hnext (ih h')

theorem Run.split {S : System σ α} {s t : σ} {first rest : List α}
    (h : Run S s (first ++ rest) t) : ∃ m, Run S s first m ∧ Run S m rest t := by
  induction first generalizing s with
  | nil => exact ⟨s, .nil s, h⟩
  | cons a first ih =>
    cases h with
    | cons hnext hrun =>
      obtain ⟨m, hfirst, hrest⟩ := ih hrun
      exact ⟨m, .cons hnext hfirst, hrest⟩

theorem Run.invariant {S : System σ α} (I : σ → Prop)
    (hstep : ∀ s a t, I s → S.next s a t → I t) {s t : σ} {labels : List α}
    (h : Run S s labels t) (hs : I s) : I t := by
  induction h with
  | nil => exact hs
  | cons hnext _ ih => exact ih (hstep _ _ _ hs hnext)

/-- When every state short of the goal has an admitted step that decreases a
measure, a run of admitted steps reaches the goal. -/
theorem exists_run_of_measure {S : System σ α} {I G : σ → Prop} {ok : α → Prop} (measure : σ → ℕ)
    (hstep : ∀ s, I s → ¬G s → ∃ a t, ok a ∧ S.next s a t ∧ I t ∧ measure t < measure s)
    {s : σ} (hs : I s) : ∃ labels t, Run S s labels t ∧ (∀ a ∈ labels, ok a) ∧ I t ∧ G t := by
  induction hn : measure s using Nat.strong_induction_on generalizing s with
  | _ n ih =>
    by_cases hg : G s
    · exact ⟨[], s, .nil s, by simp, hs, hg⟩
    · obtain ⟨a, m, ha, hnext, hm, hlt⟩ := hstep s hs hg
      obtain ⟨labels, t, hrun, hok, ht, hgoal⟩ := ih (measure m) (hn ▸ hlt) hm rfl
      refine ⟨a :: labels, t, .cons hnext hrun, fun b hb => ?_, ht, hgoal⟩
      rcases List.mem_cons.mp hb with rfl | hb
      · exact ha
      · exact hok b hb

/-- Executes a list of labels, stopping at a step that is not admitted. -/
def runAll (step : σ → α → Option σ) (ok : σ → α → Prop) [∀ s a, Decidable (ok s a)] :
    σ → List α → Option σ
  | s, [] => some s
  | s, a :: rest => if ok s a then (step s a).bind fun t => runAll step ok t rest else none

theorem reachable_runAll (step : σ → α → Option σ) (ok : σ → α → Prop)
    [∀ s a, Decidable (ok s a)] (s0 : σ) (labels : List α) {s t : σ}
    (hs : Reachable (System.ofStep s0 step) ok s) (h : runAll step ok s labels = some t) :
    Reachable (System.ofStep s0 step) ok t := by
  induction labels generalizing s with
  | nil =>
    have heq : s = t := Option.some.inj h
    exact heq ▸ hs
  | cons a rest ih =>
    simp only [runAll] at h
    split_ifs at h with hok
    obtain ⟨m, hm, hrest⟩ := Option.bind_eq_some_iff.mp h
    exact ih (.step hs hok hm) hrest

theorem run_of_runAll {S : System σ α} (step : σ → α → Option σ) (ok : σ → α → Prop)
    [∀ s a, Decidable (ok s a)] (hnext : ∀ s a t, step s a = some t → S.next s a t)
    (labels : List α) {s t : σ} (h : runAll step ok s labels = some t) : Run S s labels t := by
  induction labels generalizing s with
  | nil =>
    obtain rfl := Option.some.inj h
    exact .nil s
  | cons a rest ih =>
    simp only [runAll] at h
    split_ifs at h
    obtain ⟨m, hm, hrest⟩ := Option.bind_eq_some_iff.mp h
    exact .cons (hnext s a m hm) (ih hrest)

/-- A run that ends in a state with a decidable property reaches such a state. -/
theorem exists_reachable_of_runAll (step : σ → α → Option σ) (ok : σ → α → Prop)
    [∀ s a, Decidable (ok s a)] (s0 : σ) (labels : List α) (p : σ → Bool)
    (h : (runAll step ok s0 labels).any p = true) :
    ∃ s, Reachable (System.ofStep s0 step) ok s ∧ p s = true := by
  obtain ⟨s, hs, hp⟩ := (Option.any_eq_true _ _).mp h
  exact ⟨s, reachable_runAll step ok s0 labels (.init rfl) hs, hp⟩

/-- Executes those of the labels that are enabled when their turn comes. -/
def tryAll (step : σ → α → Option σ) : σ → List α → σ
  | s, [] => s
  | s, a :: rest => tryAll step ((step s a).getD s) rest

theorem reachable_tryAll (step : σ → α → Option σ) (s0 : σ) (labels : List α) {s : σ}
    (hs : Reachable (System.ofStep s0 step) (fun _ _ => True) s) :
    Reachable (System.ofStep s0 step) (fun _ _ => True) (tryAll step s labels) := by
  induction labels generalizing s with
  | nil => exact hs
  | cons a rest ih =>
    rw [tryAll]
    cases hnext : step s a with
    | none => exact ih hs
    | some t => exact ih (.step hs trivial hnext)

/-- The step function that takes only admitted steps. -/
def guarded (step : σ → α → Option σ) (ok : σ → α → Prop) [∀ s a, Decidable (ok s a)] (s : σ)
    (a : α) : Option σ := if ok s a then step s a else none

theorem reachable_of_guarded (step : σ → α → Option σ) (ok : σ → α → Prop)
    [∀ s a, Decidable (ok s a)] (s0 : σ) {s : σ}
    (h : Reachable (System.ofStep s0 (guarded step ok)) (fun _ _ => True) s) :
    Reachable (System.ofStep s0 step) ok s := by
  induction h with
  | init h0 => exact .init h0
  | @step s t a _ _ hnext ih =>
    have hguard : guarded step ok s a = some t := hnext
    rw [guarded] at hguard
    split_ifs at hguard with hok
    exact .step ih hok hguard

theorem exists_foldlM {β : Type} {I : σ → Prop} {f : σ → β → Option σ}
    (hstep : ∀ s b, I s → ∃ t, f s b = some t ∧ I t) (l : List β) {s : σ} (hs : I s) :
    ∃ t, l.foldlM f s = some t ∧ I t := by
  induction l generalizing s with
  | nil => exact ⟨s, rfl, hs⟩
  | cons b rest ih =>
    obtain ⟨m, hm, hI⟩ := hstep s b hs
    obtain ⟨t, ht, hIt⟩ := ih hI
    exact ⟨t, by rw [List.foldlM_cons, hm]; exact ht, hIt⟩

theorem foldlM_invariant {β : Type} {I : σ → Prop} {f : σ → β → Option σ}
    (hstep : ∀ s b t, I s → f s b = some t → I t) (l : List β) {s t : σ} (hs : I s)
    (h : l.foldlM f s = some t) : I t := by
  induction l generalizing s with
  | nil =>
    obtain rfl : s = t := Option.some.inj h
    exact hs
  | cons b rest ih =>
    rw [List.foldlM_cons] at h
    obtain ⟨m, hm, hrest⟩ := Option.bind_eq_some_iff.mp h
    exact ih (hstep s b m hs hm) hrest

/-- Both results are missing, or both are there and related. -/
theorem rel_cases {α β : Type} {r : α → β → Prop} {o : Option α} {o' : Option β}
    (h : Option.Rel r o o') :
    (o = none ∧ o' = none) ∨ ∃ a b, o = some a ∧ o' = some b ∧ r a b := by
  cases h with
  | none => exact Or.inl ⟨rfl, rfl⟩
  | some hr => exact Or.inr ⟨_, _, rfl, rfl, hr⟩

theorem rel_mono {α β : Type} {r r' : α → β → Prop} {o : Option α} {o' : Option β}
    (h : Option.Rel r o o') (himp : ∀ a b, r a b → r' a b) : Option.Rel r' o o' := by
  cases h with
  | none => exact .none
  | some hr => exact .some (himp _ _ hr)

theorem rel_bind {α β γ δ : Type} {r : α → β → Prop} {r' : γ → δ → Prop} {o : Option α}
    {o' : Option β} {f : α → Option γ} {f' : β → Option δ} (h : Option.Rel r o o')
    (hstep : ∀ a b, r a b → Option.Rel r' (f a) (f' b)) :
    Option.Rel r' (o.bind f) (o'.bind f') := by
  cases h with
  | none => exact .none
  | some hr => exact hstep _ _ hr

theorem rel_bind_self {α γ δ : Type} {r' : γ → δ → Prop} (o : Option α) {f : α → Option γ}
    {f' : α → Option δ} (hstep : ∀ a, Option.Rel r' (f a) (f' a)) :
    Option.Rel r' (o.bind f) (o.bind f') := by
  cases o with
  | none => exact .none
  | some a => exact hstep a

theorem rel_map {α β γ δ : Type} {r : α → β → Prop} {r' : γ → δ → Prop} {o : Option α}
    {o' : Option β} {f : α → γ} {f' : β → δ} (h : Option.Rel r o o')
    (hstep : ∀ a b, r a b → r' (f a) (f' b)) : Option.Rel r' (o.map f) (o'.map f') := by
  cases h with
  | none => exact .none
  | some hr => exact .some (hstep _ _ hr)

end OsSim.Base
