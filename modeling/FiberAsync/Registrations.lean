import FiberAsync.IOManager
import FiberAsync.Library.Runs

/-!
# What the event API is for

A partial map from (descriptor, event) to the waiter that asked for it, and the
list of waiters handed to their schedulers so far. This is the specification
the table of contexts is compared with; nothing here is read off the table.
-/

namespace FiberAsync

set_option autoImplicit false

open Runs

/-- The waiter of a call: its callback, or the calling fiber. -/
def AddCall.waiter (c : AddCall) : Option Waiter :=
  c.caller.scheduler.map fun sched =>
    match c.cb with
    | some cb => (sched, .ofCb cb (-1))
    | none => (sched, .ofFiber (some c.caller.fiber) (-1))

@[ext]
structure Registrations where
  waiters : Nat → Event → Option Waiter
  enqueued : List Waiter

namespace Registrations

def empty : Registrations := ⟨fun _ _ => none, []⟩

/-- The pair is given the waiter `w`, or taken out when `w` is `none`. -/
def put (s : Registrations) (fd : Nat) (e : Event) (w : Option Waiter) : Registrations :=
  { s with waiters := fun fd' e' => if fd' = fd ∧ e' = e then w else s.waiters fd' e' }

/-- The pair is taken out and its waiter, if there is one, is enqueued. -/
def release (s : Registrations) (fd : Nat) (e : Event) : Registrations :=
  { s.put fd e none with enqueued := s.enqueued ++ (s.waiters fd e).toList }

/-- `release` for the events selected by `sel`, the read event first. -/
def releaseAll (s : Registrations) (fd : Nat) (sel : Event → Bool) : Registrations :=
  let s := if sel .READ then s.release fd .READ else s
  if sel .WRITE then s.release fd .WRITE else s

/-- The events a report stands for: an error or a hang-up is for both. -/
def signalled (events : BitVec 32) (e : Event) : Bool :=
  events.getLsbD e.index || decide (events &&& (EPOLLERR ||| EPOLLHUP) ≠ 0#32)

def step (s : Registrations) : Op → Outcome × Registrations
  | .addEvent c =>
    if (s.waiters c.fd c.event).isSome then (.logicError, s)
    else (.zero, s.put c.fd c.event c.waiter)
  | .delEvent fd e => (.bool (s.waiters fd e).isSome, s.put fd e none)
  | .cancelEvent fd e => (.bool (s.waiters fd e).isSome, s.release fd e)
  | .cancelAll fd =>
    (.bool ((s.waiters fd .READ).isSome || (s.waiters fd .WRITE).isSome),
      s.releaseAll fd fun _ => true)
  | .idleEvent fd events => (.done, s.releaseAll fd (signalled events))

/-- Runs of the map, each call labelled with its result. -/
def system : System Registrations (Op × Outcome) where
  init s := s = empty
  step s a s' := s.step a.1 = (a.2, s')

variable (s : Registrations) {fd : Nat} {e : Event}

theorem put_absent (h : s.waiters fd e = none) : s.put fd e none = s := by
  have hw : (s.put fd e none).waiters = s.waiters := by
    funext fd' e'
    simp only [put]
    split
    · rename_i hx
      rw [hx.1, hx.2, h]
    · rfl
  exact Registrations.ext hw rfl

theorem release_absent (h : s.waiters fd e = none) : s.release fd e = s := by
  simp [release, s.put_absent h, h]

end Registrations

end FiberAsync
