import Mathlib.Data.List.Basic

/-!
# Scoped locks

`ScopedLockImpl` and the read and write guards have the same `lock` and
`unlock`; they differ in the destructor. A member function is the guard it
leaves behind and the calls it makes on the mutex.
-/

namespace FiberAsync

set_option autoImplicit false

inductive LockCall where
  | lock
  | unlock
  deriving DecidableEq, Repr

/-- A guard object: `m_locked`, beside the reference to its mutex. -/
structure Guard where
  m_locked : Bool
  deriving DecidableEq, Repr

namespace Guard

def new : Guard × List LockCall := (⟨true⟩, [.lock])

def lock (g : Guard) : Guard × List LockCall :=
  if g.m_locked = false then (⟨true⟩, [.lock]) else (g, [])

def unlock (g : Guard) : Guard × List LockCall :=
  if g.m_locked then (⟨false⟩, [.unlock]) else (g, [])

/-- A call of `lock` or `unlock` on the guard object itself. -/
def apply (g : Guard) : LockCall → Guard × List LockCall
  | .lock => g.lock
  | .unlock => g.unlock

/-- The guard and the calls on the mutex after a sequence of such calls. -/
def run (g : Guard) : List LockCall → Guard × List LockCall
  | [] => (g, [])
  | m :: ms =>
    let r := (g.apply m).1.run ms
    (r.1, (g.apply m).2 ++ r.2)

end Guard

/-- `~ScopedLockImpl()` unlocks whatever `m_locked` says. -/
def ScopedLockImpl.destroy (_ : Guard) : Guard × List LockCall := (⟨false⟩, [.unlock])

/-- `~ReadScopedLockImpl()` calls `unlock()`. -/
def ReadScopedLockImpl.destroy (g : Guard) : Guard × List LockCall := g.unlock

/-- `~WriteScopedLockImpl()` calls `unlock()`. -/
def WriteScopedLockImpl.destroy (g : Guard) : Guard × List LockCall := g.unlock

namespace Guard

/-- All calls on the mutex in the life of a guard whose owner makes the calls `ms` on it. -/
def life (destroy : Guard → Guard × List LockCall) (ms : List LockCall) : List LockCall :=
  new.2 ++ (new.1.run ms).2 ++ (destroy (new.1.run ms).1).2

/-- From a mutex that is held or not, the calls alternate and leave it free. -/
def alternates : Bool → List LockCall → Bool
  | held, [] => !held
  | held, .lock :: l => !held && alternates true l
  | held, .unlock :: l => held && alternates false l

theorem alternates_apply (g : Guard) (m : LockCall) (l : List LockCall) :
    alternates g.m_locked ((g.apply m).2 ++ l) = alternates (g.apply m).1.m_locked l := by
  cases m <;> cases h : g.m_locked <;> simp [apply, lock, unlock, h, alternates]

theorem alternates_run (g : Guard) (ms l : List LockCall) :
    alternates g.m_locked ((g.run ms).2 ++ l) = alternates (g.run ms).1.m_locked l := by
  induction ms generalizing g with
  | nil => rfl
  | cons m ms ih =>
    simp only [run, List.append_assoc]
    rw [alternates_apply, ih]

theorem alternates_life (destroy : Guard → Guard × List LockCall) (ms : List LockCall) :
    alternates false (life destroy ms) =
      alternates (new.1.run ms).1.m_locked (destroy (new.1.run ms).1).2 := by
  rw [← alternates_run new.1 ms]
  simp [life, new, alternates]

/-- A guard whose destructor is `unlock()` alternates however it is used. -/
theorem life_alternates (ms : List LockCall) :
    alternates false (life ReadScopedLockImpl.destroy ms) = true ∧
      alternates false (life WriteScopedLockImpl.destroy ms) = true := by
  simp only [alternates_life, ReadScopedLockImpl.destroy, WriteScopedLockImpl.destroy, unlock]
  cases (new.1.run ms).1.m_locked <;> simp [alternates]

/-- `ScopedLockImpl` does so exactly when it is destroyed while it is locked. -/
theorem scopedLock_life_alternates_iff (ms : List LockCall) :
    alternates false (life ScopedLockImpl.destroy ms) = true ↔
      (new.1.run ms).1.m_locked = true := by
  simp [alternates_life, ScopedLockImpl.destroy, alternates]

end Guard

end FiberAsync
