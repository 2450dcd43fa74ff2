import FiberAsync.Fiber
import Mathlib.Data.Fintype.Basic

/-!
# Handing a fiber from the thread it leaves to the thread it wakes on

A fiber that sleeps or waits for an event first arms what will wake it, a timer
or a registration, and then yields; `yield` sets `READY` before `swapcontext`
saves the context. From the moment it is armed another thread may take the
wake-up, queue the fiber and run it.
-/

namespace FiberAsync

set_option autoImplicit false

open Runs

inductive HandoffTask where
  | fiber (f : FiberId)
  /-- the callback `std::bind(&add_task, iom, fiber, -1)` of a sleeping fiber's timer -/
  | wake (f : FiberId)
  deriving DecidableEq, Repr

inductive HandoffPc where
  /-- in `run`, about to scan the queue -/
  | loop
  /-- in `run`, the fiber dequeued, before its `resume()` -/
  | taken (f : FiberId)
  | running (f : FiberId)
  /-- the fiber has armed its wake-up and calls `yield()` -/
  | armed (f : FiberId)
  /-- in `yield()`, `m_state` set, before `swapcontext` -/
  | readied (f : FiberId)
  /-- runs the callback that queues the fiber -/
  | calling (f : FiberId)
  /-- in `idle()`, with the vector `cbs` -/
  | idle (cbs : List FiberId)
  deriving DecidableEq, Repr

inductive HandoffFault where
  /-- `qc_assert(it->fiber->getState() == Fiber::READY)` in `run` -/
  | notReady
  /-- `qc_assert(m_state == READY)` in `resume` -/
  | resumed
  /-- `qc_assert(m_state == RUNNING || m_state == TERM)` in `yield` -/
  | notRunning
  deriving DecidableEq, Repr

structure Handoff (τ : Type) where
  _queue : List HandoffTask
  /-- the fibers that the armed timers of `sleep`, `usleep` and `nanosleep` wake -/
  timers : List FiberId
  /-- the fibers that wait for the registered events -/
  events : List FiberId
  worker : τ → HandoffPc
  m_state : FiberId → FiberState
  /-- `m_ctx` holds all of the fiber's last suspension -/
  saved : FiberId → Bool
  created : Nat

namespace Handoff

inductive Act (τ : Type) where
  /-- `add_task` of a new fiber -/
  | spawn
  | run (l : τ)
  /-- `add_timer` in `sleep`, `usleep` or `nanosleep` -/
  | sleep (l : τ)
  /-- `addEvent(fd, event)` with the running fiber as the waiter -/
  | addEvent (l : τ)
  /-- the fiber's callback returns -/
  | finish (l : τ)
  /-- `listExpiredCb` in `idle` -/
  | expire (l : τ) (f : FiberId)
  /-- `triggerEvent` in `idle` -/
  | dispatch (l : τ) (f : FiberId)
  deriving DecidableEq, Repr

variable {τ : Type}

def initial : Handoff τ where
  _queue := []
  timers := []
  events := []
  worker := fun _ => .loop
  m_state := fun _ => .READY
  saved := fun _ => true
  created := 0

variable [DecidableEq τ] (s : Handoff τ)

def setPc (l : τ) (pc : HandoffPc) : Handoff τ :=
  { s with worker := Function.update s.worker l pc }

def setState (f : FiberId) (state : FiberState) : Handoff τ :=
  { s with m_state := Function.update s.m_state f state }

def setSaved (f : FiberId) (saved : Bool) : Handoff τ :=
  { s with saved := Function.update s.saved f saved }

def push (task : HandoffTask) : Handoff τ := { s with _queue := s._queue ++ [task] }

def spawn : Handoff τ :=
  { ((s.setState s.created .READY).setSaved s.created true).push (.fiber s.created) with
    created := s.created + 1 }

def runWorker (l : τ) : HandoffPc → Option (Except HandoffFault (Handoff τ))
  | .loop =>
    match s._queue with
    | [] => some (.ok (s.setPc l (.idle [])))
    | .wake f :: queue => some (.ok { s.setPc l (.calling f) with _queue := queue })
    | .fiber f :: queue =>
      if s.m_state f = .READY then some (.ok { s.setPc l (.taken f) with _queue := queue })
      else some (.error .notReady)
  | .taken f =>
    if s.m_state f = .READY then
      some (.ok (((s.setState f .RUNNING).setSaved f false).setPc l (.running f)))
    else some (.error .resumed)
  | .running _ => none
  | .armed f =>
    if s.m_state f = .RUNNING ∨ s.m_state f = .TERM then
      some (.ok
        ((s.setState f (if s.m_state f ≠ .TERM then .READY else .TERM)).setPc l (.readied f)))
    else some (.error .notRunning)
  | .readied f => some (.ok ((s.setSaved f true).setPc l .loop))
  | .calling f => some (.ok ((s.push (.fiber f)).setPc l .loop))
  | .idle (f :: cbs) => some (.ok ((s.push (.wake f)).setPc l (.idle cbs)))
  | .idle [] => some (.ok (s.setPc l .loop))

def exec : Act τ → Option (Except HandoffFault (Handoff τ))
  | .spawn => some (.ok s.spawn)
  | .run l => s.runWorker l (s.worker l)
  | .sleep l =>
    match s.worker l with
    | .running f => some (.ok { s.setPc l (.armed f) with timers := f :: s.timers })
    | _ => none
  | .addEvent l =>
    match s.worker l with
    | .running f => some (.ok { s.setPc l (.armed f) with events := f :: s.events })
    | _ => none
  | .finish l =>
    match s.worker l with
    | .running f => some (.ok ((s.setState f .TERM).setPc l .loop))
    | _ => none
  | .expire l f =>
    match s.worker l with
    | .idle cbs =>
      if f ∈ s.timers then
        some (.ok { s.setPc l (.idle (cbs ++ [f])) with timers := s.timers.erase f })
      else none
    | _ => none
  | .dispatch l f =>
    match s.worker l with
    | .idle _ =>
      if f ∈ s.events then some (.ok { s.push (.fiber f) with events := s.events.erase f })
      else none
    | _ => none

def system : System (Handoff τ) (Act τ) where
  init s := s = initial
  step s a s' := s.exec a = some (.ok s')

def next (a : Act τ) : Option (Handoff τ) := (s.exec a).bind Except.toOption

theorem next_sound {s s' : Handoff τ} {a : Act τ} (h : s.next a = some s') :
    system.step s a s' := by
  obtain ⟨r, hr, hok⟩ := Option.bind_eq_some_iff.mp h
  cases r with
  | error f => cases hok
  | ok u =>
    cases hok
    exact hr

end Handoff

inductive OnPc where
  | running
  | armed
  | readied
  deriving DecidableEq, Repr

/-- What the worker at the program counter does with the fiber. -/
def HandoffPc.on (f : FiberId) : HandoffPc → Option OnPc
  | running g => if g = f then some .running else none
  | armed g => if g = f then some .armed else none
  | readied g => if g = f then some .readied else none
  | _ => none

namespace Handoff

variable {τ : Type}

/-- No step fails an assertion, and a fiber about to be resumed has been saved. -/
structure Safe [DecidableEq τ] (s : Handoff τ) : Prop where
  asserts : ∀ a fault, s.exec a ≠ some (.error fault)
  saved : ∀ l f, s.worker l = .taken f → s.saved f = true

def queues (s : Handoff τ) : Act τ → Option FiberId
  | .run l =>
    match s.worker l with
    | .calling f => some f
    | _ => none
  | .dispatch _ f => some f
  | _ => none

/-- The step queues a fiber that a worker has not yet switched away from. -/
def Early (s : Handoff τ) (a : Act τ) : Prop :=
  ∃ f ∈ s.queues a, ∃ l, (s.worker l).on f ≠ none

instance [Fintype τ] (s : Handoff τ) (a : Act τ) : Decidable (s.Early a) :=
  inferInstanceAs (Decidable (∃ f ∈ s.queues a, ∃ l, (s.worker l).on f ≠ none))

end Handoff

end FiberAsync
