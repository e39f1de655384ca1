import Mathlib

/-!
# A mutex and its condition variable

One thread waits for a guard and another one sets it:

    lock; while (!guard) wait; ...; unlock        lock; set; signal; unlock

`wait` gives the mutex up and falls asleep in one step. A sleeper wakes at a
signal, or for no reason, and takes the mutex again before it tests the guard
once more. The guard is the business of the system around them: while one thread
waits, it changes only at `set`. Then no wakeup is lost: a thread that sleeps
although the guard is true is about to be signalled.
-/

namespace OsSim.Base

/-- What the waiting thread does next. -/
inductive Waiter where
  | out
  | test
  | wait
  | sleep
  | woken
  | past
  deriving DecidableEq

/-- What the setting thread does next. -/
inductive Setter where
  | out
  | set
  | signal
  | unlock
  deriving DecidableEq

def Waiter.inside : Waiter → Bool
  | .test | .wait | .past => true
  | .out | .sleep | .woken => false

def Setter.inside : Setter → Bool
  | .set | .signal | .unlock => true
  | .out => false

structure CondVar where
  waiter : Waiter
  setter : Setter
  deriving DecidableEq

def CondVar.idle : CondVar := ⟨.out, .out⟩

/-- Nobody is between a `lock` and the next `unlock` or `wait`. -/
def CondVar.free (c : CondVar) : Bool := !c.waiter.inside && !c.setter.inside

def CondVar.waiterStep (guard : Bool) (c : CondVar) : Option CondVar :=
  match c.waiter with
  | .out | .woken => if c.free then some { c with waiter := .test } else none
  | .test => some { c with waiter := if guard then .past else .wait }
  | .wait => some { c with waiter := .sleep }
  | .sleep => none
  | .past => some { c with waiter := .out }

def CondVar.setterStep (c : CondVar) : Option CondVar :=
  match c.setter with
  | .out => if c.free then some { c with setter := .set } else none
  | .set => some { c with setter := .signal }
  | .signal => some ⟨if c.waiter = .sleep then .woken else c.waiter, .unlock⟩
  | .unlock => some { c with setter := .out }

/-- A wakeup without a signal. -/
def CondVar.spurious (c : CondVar) : Option CondVar :=
  if c.waiter = .sleep then some { c with waiter := .woken } else none

section Cases
variable {guard : Bool} {c c' : CondVar}

theorem CondVar.setter_lock (hout : c.setter = .out) (h : c.setterStep = some c') :
    c' = { c with setter := .set } := by
  rw [CondVar.setterStep, hout] at h
  dsimp only at h
  split_ifs at h
  exact (Option.some.inj h).symm

theorem CondVar.setter_set (hset : c.setter = .set) (h : c.setterStep = some c') :
    c' = { c with setter := .signal } := by
  rw [CondVar.setterStep, hset] at h
  exact (Option.some.inj h).symm

/-- The end of the setting section: a signal, then the unlock. -/
theorem CondVar.setter_leave (hne : c.setter ≠ .out) (hset : c.setter ≠ .set)
    (h : c.setterStep = some c') : (c'.setter = .unlock ∨ c'.setter = .out) ∧
      (c'.waiter ≠ .out → c.waiter ≠ .out) ∧ (c.waiter = .past → c'.waiter = .past) := by
  obtain ⟨w, s⟩ := c
  cases s with
  | out => exact absurd rfl hne
  | set => exact absurd rfl hset
  | signal =>
    obtain rfl := Option.some.inj h
    refine ⟨Or.inl rfl, fun hw hout => hw ?_, fun hpast => ?_⟩
    · simp [show w = .out from hout]
    · simp [show w = .past from hpast]
  | unlock =>
    obtain rfl := Option.some.inj h
    exact ⟨Or.inr rfl, id, id⟩

theorem CondVar.waiter_unlock (hpast : c.waiter = .past) (h : c.waiterStep guard = some c') :
    c' = { c with waiter := .out } := by
  rw [CondVar.waiterStep, hpast] at h
  exact (Option.some.inj h).symm

end Cases

/-- The two exclude each other, and nobody sleeps through the guard. -/
structure CondVar.Ok (guard : Bool) (c : CondVar) : Prop where
  exclusive : ¬(c.waiter.inside = true ∧ c.setter.inside = true)
  wait : c.waiter = .wait → guard = false
  sleep : c.waiter = .sleep → guard = false ∨ c.setter = .signal
  past : c.waiter = .past → guard = true

theorem CondVar.ok_idle (guard : Bool) : CondVar.idle.Ok guard := by
  constructor <;> simp [CondVar.idle, Waiter.inside]

section Steps
variable {guard : Bool} {c c' : CondVar}

theorem CondVar.Ok.waiterStep (h : c.Ok guard) (hstep : c.waiterStep guard = some c') :
    c'.Ok guard ∧ c'.setter = c.setter := by
  obtain ⟨w, s⟩ := c
  have hexclusive := h.exclusive
  cases w with
  | out | woken =>
    dsimp only [CondVar.waiterStep] at hstep
    split_ifs at hstep with hfree
    obtain rfl := Option.some.inj hstep
    simp only [CondVar.free, Bool.and_eq_true, Bool.not_eq_true'] at hfree
    exact ⟨⟨by simp [hfree.2], by simp, by simp, by simp⟩, rfl⟩
  | test =>
    obtain rfl := Option.some.inj hstep
    cases guard with
    | true => exact ⟨⟨by simpa [Waiter.inside] using hexclusive, by simp, by simp, by simp⟩, rfl⟩
    | false => exact ⟨⟨by simpa [Waiter.inside] using hexclusive, by simp, by simp, by simp⟩, rfl⟩
  | wait =>
    obtain rfl := Option.some.inj hstep
    exact ⟨⟨by simp [Waiter.inside], by simp, fun _ => Or.inl (h.wait rfl), by simp⟩, rfl⟩
  | sleep => simp [CondVar.waiterStep] at hstep
  | past =>
    obtain rfl := Option.some.inj hstep
    exact ⟨⟨by simp [Waiter.inside], by simp, by simp, by simp⟩, rfl⟩

/-- Every step of the setter but `set` leaves the guard alone. -/
theorem CondVar.Ok.setterStep (h : c.Ok guard) (hne : c.setter ≠ .set)
    (hstep : c.setterStep = some c') : c'.Ok guard := by
  obtain ⟨w, s⟩ := c
  cases s with
  | out =>
    dsimp only [CondVar.setterStep] at hstep
    split_ifs at hstep with hfree
    obtain rfl := Option.some.inj hstep
    simp only [CondVar.free, Bool.and_eq_true, Bool.not_eq_true'] at hfree
    have hsleep : w = .sleep → guard = false := fun hw => by simpa using h.sleep hw
    exact ⟨by simp [hfree.1], h.wait, fun hw => Or.inl (hsleep hw), h.past⟩
  | set => exact absurd rfl hne
  | signal =>
    obtain rfl := Option.some.inj hstep
    have hout : w.inside = false := by simpa [Setter.inside] using h.exclusive
    cases w with
    | test | wait | past => simp [Waiter.inside] at hout
    | out | sleep | woken => exact ⟨by simp [Waiter.inside], by simp, by simp, by simp⟩
  | unlock =>
    obtain rfl := Option.some.inj hstep
    have hsleep : w = .sleep → guard = false := fun hw => by simpa using h.sleep hw
    exact ⟨by simp [Setter.inside], h.wait, fun hw => Or.inl (hsleep hw), h.past⟩

/-- The guard may be anything after `set`. -/
theorem CondVar.Ok.set (h : c.Ok guard) (hset : c.setter = .set) (hstep : c.setterStep = some c')
    (guard' : Bool) : c'.Ok guard' := by
  obtain ⟨w, s⟩ := c
  obtain rfl : s = .set := hset
  obtain rfl := Option.some.inj hstep
  have hout : w.inside = false := by simpa [Setter.inside] using h.exclusive
  cases w with
  | test | wait | past => simp [Waiter.inside] at hout
  | out | sleep | woken => exact ⟨by simp [Waiter.inside], by simp, by simp, by simp⟩

/-- While nobody waits the guard may be anything. -/
theorem CondVar.Ok.out (h : c.Ok guard) (hout : c.waiter = .out) (guard' : Bool) : c.Ok guard' :=
  ⟨h.exclusive, by simp [hout], by simp [hout], by simp [hout]⟩

theorem CondVar.ok_spurious (guard : Bool) (hstep : c.spurious = some c') :
    c'.Ok guard ∧ c'.setter = c.setter := by
  rw [CondVar.spurious] at hstep
  split_ifs at hstep with hsleep
  obtain rfl := Option.some.inj hstep
  exact ⟨⟨by simp [Waiter.inside], by simp, by simp, by simp⟩, rfl⟩

/-- The waiter stands still because it sleeps or because the setter has the mutex. -/
theorem CondVar.waiter_stuck (h : c.waiterStep guard = none) :
    c.waiter = .sleep ∨ c.waiter.inside = false ∧ c.setter.inside = true := by
  obtain ⟨w, s⟩ := c
  cases w with
  | out | woken =>
    dsimp only [CondVar.waiterStep] at h
    split_ifs at h with hfree
    exact Or.inr ⟨rfl, by simpa [CondVar.free, Waiter.inside] using hfree⟩
  | test | wait | past => simp [CondVar.waiterStep] at h
  | sleep => exact Or.inl rfl

/-- The setter stands still because the waiter has the mutex. -/
theorem CondVar.setter_stuck (h : c.setterStep = none) :
    c.setter = .out ∧ c.waiter.inside = true := by
  obtain ⟨w, s⟩ := c
  cases s with
  | out =>
    dsimp only [CondVar.setterStep] at h
    split_ifs at h with hfree
    exact ⟨rfl, by simpa [CondVar.free, Setter.inside] using hfree⟩
  | set | signal | unlock => simp [CondVar.setterStep] at h

end Steps

end OsSim.Base
