import Mathlib

/-!
# Code that locks and unlocks mutexes

A computation is a tree of its lock operations and of the values it gets from outside:
what other threads left behind when a lock is granted, and whatever an undefined
operation yields. `Exec` lists the operations of every way it can run, up to its
return or to any point before. `Leads` is a triple on the mutexes that are held, with one rule
for each construct; `result` forgets the locks and the other threads.
-/

namespace OsSim.Base

variable {M α β : Type}

inductive Locking (M α : Type) : Type 1 where
  | done (x : α)
  | lock (m : M) (k : Locking M α)
  | unlock (m : M) (k : Locking M α)
  /-- Any value; `x` is the one without other threads, none if there is none. -/
  | any {β : Type} (x : Option β) (k : β → Locking M α)

namespace Locking

def bind : Locking M α → (α → Locking M β) → Locking M β
  | .done x, f => f x
  | .lock m k, f => .lock m (k.bind f)
  | .unlock m k, f => .unlock m (k.bind f)
  | .any x k, f => .any x fun y => (k y).bind f

instance instMonadLocking : Monad (Locking M) where
  pure := .done
  bind := bind

/-- The lock is granted, and the state it protects is what the others left. -/
def acquire (m : M) (s : α) : Locking M α := .lock m (.any (some s) .done)

def release (m : M) : Locking M Unit := .unlock m (.done ())

/-- An operation without locks. Where it is undefined it stops or yields anything. -/
def ofOption : Option α → Locking M α
  | none => .any none .done
  | some x => .done x

/-! ### Runs -/

inductive Event (M : Type) where
  | lock (m : M)
  | unlock (m : M)

/-- The operations of a run so far, and what it returned if it has. -/
inductive Exec : Locking M α → List (Event M) → Option α → Prop where
  | stop (t) : Exec t [] none
  | done (x) : Exec (.done x) [] (some x)
  | lock (m) {k es r} : Exec k es r → Exec (.lock m k) (.lock m :: es) r
  | unlock (m) {k es r} : Exec k es r → Exec (.unlock m k) (.unlock m :: es) r
  | any {β : Type} {x : Option β} {k : β → Locking M α} (y : β) {es r} :
      Exec (k y) es r → Exec (.any x k) es r

section Mutexes
variable [DecidableEq M]

/-- The mutexes held after some operations, none if one of them locked a mutex that was
held or unlocked one that was free. -/
def heldAfter (held : M → Bool) : List (Event M) → Option (M → Bool)
  | [] => some held
  | .lock m :: es => if held m then none else heldAfter (Function.update held m true) es
  | .unlock m :: es => if held m then heldAfter (Function.update held m false) es else none

def allFree : M → Bool := fun _ => false

/-- From all mutexes free, no run locks a held mutex or unlocks a free one, and one that
has returned holds none. -/
def Disciplined (t : Locking M α) : Prop :=
  ∀ es r, Exec t es r → ∃ held, heldAfter allFree es = some held ∧
    (r.isSome = true → ∀ m, held m = false)

/-! ### Rules -/

/-- Every run keeps to the discipline and turns the held mutexes `a` into `b`. -/
def Leads : Locking M α → (M → Bool) → (M → Bool) → Prop
  | .done _, a, b => a = b
  | .lock m k, a, b => a m = false ∧ Leads k (Function.update a m true) b
  | .unlock m k, a, b => a m = true ∧ Leads k (Function.update a m false) b
  | .any _ k, a, b => ∀ y, Leads (k y) a b

theorem Leads.pure (x : α) (a : M → Bool) : Leads (Pure.pure x : Locking M α) a a := rfl

theorem Leads.bind {t : Locking M α} {f : α → Locking M β} {a b c : M → Bool}
    (h : t.Leads a b) (hf : ∀ x, (f x).Leads b c) : (t >>= f).Leads a c := by
  induction t generalizing a with
  | done x =>
    obtain rfl : a = b := h
    exact hf x
  | lock m k ih => exact ⟨h.1, ih h.2⟩
  | unlock m k ih => exact ⟨h.1, ih h.2⟩
  | any x k ih => exact fun y => ih y (h y)

theorem Leads.ofOption (x : Option α) (a : M → Bool) :
    (ofOption x : Locking M α).Leads a a := by
  cases x with
  | none => exact fun _ => rfl
  | some x => rfl

theorem Leads.acquire {m : M} {a : M → Bool} (h : a m = false) (s : α) :
    (acquire m s).Leads a (Function.update a m true) := ⟨h, fun _ => rfl⟩

theorem Leads.release {m : M} {a : M → Bool} (h : a m = false) :
    (release m).Leads (Function.update a m true) a := by
  refine ⟨Function.update_self .., ?_⟩
  simp [Leads, ← h]

/-- The end of a section that returns `x`. -/
theorem Leads.leave {m : M} {a : M → Bool} (h : a m = false) (x : α) :
    (Locking.release m >>= fun _ => Pure.pure x).Leads (Function.update a m true) a :=
  (Leads.release h).bind fun _ => Leads.pure x a

theorem Leads.exec {t : Locking M α} {a b : M → Bool} {es : List (Event M)} {r : Option α}
    (h : t.Leads a b) (hrun : Exec t es r) :
    ∃ held, heldAfter a es = some held ∧ (r.isSome = true → held = b) := by
  induction hrun generalizing a with
  | stop t => exact ⟨a, rfl, nofun⟩
  | done x => exact ⟨a, rfl, fun _ => h⟩
  | lock m hrun ih =>
    obtain ⟨held, hheld, hend⟩ := ih h.2
    exact ⟨held, by simp [heldAfter, h.1, hheld], hend⟩
  | unlock m hrun ih =>
    obtain ⟨held, hheld, hend⟩ := ih h.2
    exact ⟨held, by simp [heldAfter, h.1, hheld], hend⟩
  | any y hrun ih => exact ih (h y)

/-- The triple for a call that is made with every mutex free. -/
theorem Leads.disciplined {t : Locking M α} (h : t.Leads allFree allFree) : t.Disciplined := by
  intro es r hrun
  obtain ⟨held, hheld, hend⟩ := h.exec hrun
  exact ⟨held, hheld, fun hr m => congrFun (hend hr) m⟩

end Mutexes

/-! ### Without other threads -/

/-- The value returned, none if an operation on the way is undefined. -/
def result : Locking M α → Option α
  | .done x => some x
  | .lock _ k => k.result
  | .unlock _ k => k.result
  | .any none _ => none
  | .any (some y) k => (k y).result

@[simp] theorem result_pure (x : α) : (pure x : Locking M α).result = some x := rfl

@[simp] theorem result_bind (t : Locking M α) (f : α → Locking M β) :
    (t >>= f).result = t.result.bind fun x => (f x).result := by
  induction t with
  | done x => rfl
  | lock m k ih => exact ih
  | unlock m k ih => exact ih
  | any x k ih =>
    cases x with
    | none => rfl
    | some y => exact ih y

@[simp] theorem result_acquire (m : M) (s : α) : (acquire m s).result = some s := rfl

@[simp] theorem result_release (m : M) : (release m).result = some () := rfl

@[simp] theorem result_ofOption (x : Option α) : (ofOption x : Locking M α).result = x := by
  cases x <;> rfl

end Locking

end OsSim.Base
