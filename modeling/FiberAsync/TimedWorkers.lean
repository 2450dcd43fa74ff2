import FiberAsync.TimerAnnouncements
import FiberAsync.WakeUp

/-!
# Workers that wait for the earliest timer

`IOManager::idle()` asks `getNextTimer` for a timeout, waits in `epoll_wait`,
posts the callbacks of the expired timers as tasks, empties the tickle pipe when
it was reported, and yields to the run loop, which may take a task. The tickle
pipe serves the task queue and the timers alike. Other threads and the tasks use
the timers and the queue at any time; the workers are not being stopped.
-/

namespace FiberAsync

set_option autoImplicit false

open Runs

/-- A wait in `epoll_wait`, with the reading of the clock that its timeout is computed from. -/
structure Wait where
  since : Millis
  timeout : Int
  deriving DecidableEq, Repr

namespace Wait

def MAX_TIMEOUT : Int := 5000

/-- What `idle()` makes of the result of `getNextTimer`. -/
def ofNext (since next_timeout : Millis) : Wait where
  since := since
  timeout :=
    let next_timeout := if next_timeout = ~~~0 then 6000 else next_timeout
    min (next_timeout.setWidth 32).toInt MAX_TIMEOUT

/-- It is over by the deadline: a timeout of zero does not wait, a negative one never ends. -/
def EndsBy (w : Wait) (m_next : Millis) : Prop :=
  w.timeout = 0 ∨ 0 < w.timeout ∧ w.since.toNat + w.timeout ≤ m_next.toNat

instance (w : Wait) (m_next : Millis) : Decidable (w.EndsBy m_next) :=
  inferInstanceAs (Decidable (_ ∨ _))

end Wait

inductive TimedPc where
  /-- `idled`: back from `idle()`, and no task since -/
  | scan (idled : Bool)
  /-- in `tickle()` after a scan -/
  | tickle (found : Option QueuedTask) (at_ : TicklePc)
  | execute (q : QueuedTask)
  /-- the scan found nothing, `++_idleThreadCount` is next -/
  | hungry
  /-- in `idle()`, before `getNextTimer` -/
  | entering
  /-- in `epoll_wait` -/
  | waiting (w : Wait)
  /-- `epoll_wait` has returned; `tickled`: with the tickle pipe -/
  | returned (tickled : Bool)
  /-- in `listExpiredCb` -/
  | listing (tickled : Bool)
  /-- in the loop that posts the callbacks, with the rest of them -/
  | posting (tickled : Bool) (cbs : List (Option Callback)) (at_ : Option TicklePc)
  /-- before the loop that reads the tickle pipe -/
  | draining
  /-- in `idle()`, about to yield -/
  | leaving
  deriving DecidableEq, Repr

namespace TimedPc

def withTask : Option QueuedTask → TimedPc
  | some q => execute q
  | none => hungry

def afterScan (r : Scan) : TimedPc := if r.tickle_me then tickle r.task .check else withTask r.task

/-- Counted in `_idleThreadCount`. -/
def counted : TimedPc → Nat
  | scan _ | tickle _ _ | execute _ | hungry => 0
  | entering | waiting _ | returned _ | listing _ | posting _ _ _ | draining | leaving => 1

def wait? : TimedPc → Option Wait
  | waiting w => some w
  | _ => none

/-- Where in `tickle()` it is. -/
def tickling : TimedPc → Option TicklePc
  | tickle _ at_ => some at_
  | posting _ _ at_ => at_
  | _ => none

end TimedPc

/-- The next step of a thread in `listExpiredCb`. -/
def TimerPc.listAct (t : Tid) (nowAddress : Nat) : TimerPc → Option TimerAct
  | reading _ _ => some (.check t)
  | expiring _ _ => some (.expire t nowAddress)
  | delivering _ _ => some (.deliver t)
  | out | adding _ | resetting _ => none

def TimerPc.cbs : TimerPc → List (Option Callback)
  | reading cbs _ | expiring cbs _ | delivering cbs _ => cbs
  | out | adding _ | resetting _ => []

/-- The thread that an act is a step of, if it names one. -/
def TimerAct.thread : TimerAct → Option Tid
  | add_timer t _ _ _ _ | listExpiredCb t _ | check t | add t | expire t _ | deliver t => some t
  | reset t _ _ _ | restart t => some t
  | _ => none

structure TimedWorkers (τ : Type) where
  timers : TimerThreads
  _queue : List QueuedTask
  _idleThreadCount : Nat
  /-- the unread bytes of the tickle pipe -/
  pipe : Nat
  /-- a write to the pipe has not yet been reported by an `epoll_wait` -/
  edge : Bool
  worker : τ → TimedPc
  /-- the other threads, and the tasks, in `tickle()` -/
  caller : Tid → Option TicklePc
  added : Nat

namespace TimedWorkers

inductive Act (τ : Type) where
  /-- a step of a thread, or a task, with the timers -/
  | timer (t : Tid) (a : TimerAct)
  /-- the section of `add_task` under the mutex -/
  | add_task (t : Tid) (task : ScheduleTask)
  /-- a step of `tickle()` after one of these -/
  | tickle (t : Tid)
  /-- a step of a worker; the address is that of `now_timer` -/
  | run (l : τ) (nowAddress : Nat)
  /-- `epoll_wait` reports the tickle pipe -/
  | wake (l : τ)
  /-- `epoll_wait` returns for another reason -/
  | timeout (l : τ)
  /-- `epoll_wait` fails with `EINTR` -/
  | interrupt (l : τ)
  deriving DecidableEq, Repr

variable {τ : Type}

/-- The manager is constructed when the clock reads `start`. -/
def initial (start : Millis) : TimedWorkers τ where
  timers := .initial start
  _queue := []
  _idleThreadCount := 0
  pipe := 0
  edge := false
  worker := fun _ => .scan false
  caller := fun _ => none
  added := 0

def hasIdleThreads (s : TimedWorkers τ) : Bool := s._idleThreadCount > 0

def tickle (s : TimedWorkers τ) : TicklePc → TimedWorkers τ × Option TicklePc
  | .check => (s, if s.hasIdleThreads then some .write else none)
  | .write => ({ s with pipe := s.pipe + 1, edge := true }, none)

/-- `add_task` under the mutex, and where that leaves its caller in `tickle()`. -/
def push (s : TimedWorkers τ) (task : ScheduleTask) : TimedWorkers τ × Option TicklePc :=
  let (need_tickle, _queue) := add_task_nolock s._queue ⟨s.added, task⟩
  ({ s with _queue := _queue, added := s.added + 1 }, if need_tickle then some .check else none)

def setCaller (s : TimedWorkers τ) (t : Tid) (at_ : Option TicklePc) : TimedWorkers τ :=
  { s with caller := Function.update s.caller t at_ }

section Model

variable [DecidableEq τ] (tid : τ → Tid) (s : TimedWorkers τ)

def setPc (l : τ) (pc : TimedPc) : TimedWorkers τ :=
  { s with worker := Function.update s.worker l pc }

/-- A step of `listExpiredCb`; at its end the worker has the callbacks. -/
def list (l : τ) (tickled : Bool) (nowAddress : Nat) : Option (TimedWorkers τ) :=
  let pc := s.timers.pc (tid l)
  (pc.listAct (tid l) nowAddress).bind fun a => (s.timers.next a).map fun timers =>
    let done := timers.pc (tid l) = .out
    { s.setPc l (if done then .posting tickled pc.cbs none else .listing tickled) with timers }

def runWorker (l : τ) (nowAddress : Nat) : Option (TimedWorkers τ) :=
  match s.worker l with
  | .scan _ =>
    let r := FiberAsync.scan (tid l) s._queue
    some { s.setPc l (.afterScan r) with _queue := r.queue }
  | .tickle found at_ =>
    match s.tickle at_ with
    | (s, some at_) => some (s.setPc l (.tickle found at_))
    | (s, none) => some (s.setPc l (.withTask found))
  | .execute _ => some (s.setPc l (.scan false))
  | .hungry => some { s.setPc l .entering with _idleThreadCount := s._idleThreadCount + 1 }
  | .entering =>
    let next_timeout := (s.timers.manager.getNextTimer s.timers.clock).1
    (s.timers.next .getNextTimer).map fun timers =>
      { s.setPc l (.waiting (.ofNext s.timers.clock next_timeout)) with timers }
  | .waiting _ => none
  | .returned tickled =>
    (s.timers.next (.listExpiredCb (tid l) [])).map fun timers =>
      { s.setPc l (.listing tickled) with timers }
  | .listing tickled => s.list tid l tickled nowAddress
  | .posting tickled (cb :: cbs) none =>
    let (s, at_) := s.push ⟨none, cb, -1⟩
    some (s.setPc l (.posting tickled cbs at_))
  | .posting tickled cbs (some at_) =>
    let (s, rest) := s.tickle at_
    some (s.setPc l (.posting tickled cbs rest))
  | .posting tickled [] none => some (s.setPc l (if tickled then .draining else .leaving))
  | .draining => some { s.setPc l .leaving with pipe := 0 }
  | .leaving => some { s.setPc l (.scan true) with _idleThreadCount := s._idleThreadCount - 1 }

/-- A thread outside `tickle()` takes a step with the timers, and goes on to
`OnTimerInsertedAtFront` where `add_timer` or `reset` calls it. -/
def stepTimers (t : Tid) (a : TimerAct) : Option (TimedWorkers τ) :=
  if s.caller t = none ∧ a ≠ .getNextTimer ∧ (a.thread = none ∨ a.thread = some t) then
    (s.timers.next a).map fun timers =>
      let s' := { s with timers }
      if TimerThreads.announces ⟨s.timers, a, timers⟩ then s'.setCaller t (some .check) else s'
  else none

def next : Act τ → Option (TimedWorkers τ)
  | .timer t a => s.stepTimers t a
  | .add_task t task =>
    if s.caller t = none then
      let (s, at_) := s.push task
      some (s.setCaller t at_)
    else none
  | .tickle t =>
    match s.caller t with
    | some at_ =>
      let (s, rest) := s.tickle at_
      some (s.setCaller t rest)
    | none => none
  | .run l nowAddress => s.runWorker tid l nowAddress
  | .wake l =>
    if (s.worker l).wait?.isSome ∧ s.edge ∧ 0 < s.pipe then
      some { s.setPc l (.returned true) with edge := false }
    else none
  | .timeout l => if (s.worker l).wait?.isSome then some (s.setPc l (.returned false)) else none
  | .interrupt l => if (s.worker l).wait?.isSome then some (s.setPc l .entering) else none

def system : System (TimedWorkers τ) (Act τ) where
  init s := ∃ start, s = initial start
  step s a s' := s.next tid a = some s'

theorem next_sound {s s' : TimedWorkers τ} {a : Act τ} (h : s.next tid a = some s') :
    (system tid).step s a s' := h

end Model

end TimedWorkers

end FiberAsync
