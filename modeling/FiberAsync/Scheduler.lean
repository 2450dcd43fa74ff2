import FiberAsync.FdContext
import FiberAsync.Library.Runs

/-!
# The task queue and the run loops of the base scheduler

A loop of `run` scans the queue under the scheduler's mutex, runs what it found
or its idle fiber, and scans again. The idle fiber of the base scheduler yields
until `stopping()`; a loop whose idle fiber has terminated leaves at its next
scan that finds nothing. Tasks are numbered in the order of the `add_task` calls.
-/

namespace FiberAsync

set_option autoImplicit false

open Runs

structure QueuedTask where
  /-- which `add_task` call queued it -/
  number : Nat
  task : ScheduleTask
  deriving DecidableEq, Repr

/-- `qc_assert(it->fiber || it->cb)`, and `qc_assert(it->fiber->getState() == Fiber::READY)`
if there is a fiber -/
def ScheduleTask.passes (task : ScheduleTask) (ready : FiberId → Bool) : Bool :=
  match task.fiber with
  | some f => ready f
  | none => task.cb.isSome

/-- What a scan of the queue leaves in `task`, `_queue` and `tickle_me`. -/
structure Scan where
  task : Option QueuedTask
  queue : List QueuedTask
  tickle_me : Bool
  deriving DecidableEq, Repr

/-- `it->thread == -1 || it->thread == syscall(SYS_gettid)` -/
def QueuedTask.eligible (tid : Int) (q : QueuedTask) : Bool :=
  q.task.thread = -1 ∨ q.task.thread = tid

/-- The loop over `_queue` in `run`. -/
def scan (tid : Int) : List QueuedTask → Scan
  | [] => ⟨none, [], false⟩
  | q :: queue =>
    if q.eligible tid then ⟨some q, queue, !queue.isEmpty⟩
    else
      let rest := scan tid queue
      ⟨rest.task, q :: rest.queue, true⟩

def add_task_nolock (queue : List QueuedTask) (q : QueuedTask) : Bool × List QueuedTask :=
  (queue.isEmpty, queue ++ [q])

/-- A scan takes the first task that the thread may run, and asks for a tickle
when it leaves a task behind. -/
inductive Scanned (tid : Int) (queue : List QueuedTask) : Scan → Prop where
  | found (skipped : List QueuedTask) (q : QueuedTask) (rest : List QueuedTask) :
      queue = skipped ++ q :: rest → (∀ x ∈ skipped, x.eligible tid = false) →
      q.eligible tid = true →
      Scanned tid queue ⟨some q, skipped ++ rest, !(skipped ++ rest).isEmpty⟩
  | nothing : (∀ x ∈ queue, x.eligible tid = false) →
      Scanned tid queue ⟨none, queue, !queue.isEmpty⟩

theorem scanned (tid : Int) (queue : List QueuedTask) : Scanned tid queue (scan tid queue) := by
  induction queue with
  | nil => exact .nothing (by simp)
  | cons q queue ih =>
    unfold scan
    split
    case isTrue hq => exact .found [] q queue rfl (by simp) hq
    case isFalse hq =>
      have hq := Bool.eq_false_iff.mpr hq
      generalize scan tid queue = r at ih
      cases ih with
      | found skipped q' rest hqueue hskip hq' =>
        refine .found (q :: skipped) q' rest (congrArg (q :: ·) hqueue) ?_ hq'
        exact List.forall_mem_cons.mpr ⟨hq, hskip⟩
      | nothing hskip => exact .nothing (List.forall_mem_cons.mpr ⟨hq, hskip⟩)

inductive LoopPc where
  | begin
  /-- about to scan -/
  | scan
  | execute (q : QueuedTask)
  /-- the callback has returned, `--_activeThreadCount` is next -/
  | returned
  /-- the scan found nothing -/
  | nothing
  /-- in the idle fiber, about to call `stopping()` -/
  | idle
  | exited
  deriving DecidableEq, Repr

structure RunLoop where
  pc : LoopPc
  /-- `idleFiber->getState() == Fiber::TERM` -/
  idleTerm : Bool
  deriving DecidableEq, Repr

structure Scheduler (τ : Type) where
  _queue : List QueuedTask
  _activeThreadCount : Nat
  _idleThreadCount : Nat
  _stopping : Bool
  loop : τ → RunLoop
  added : Nat
  /-- the numbers of the tasks whose callbacks have returned -/
  executed : List Nat

namespace Scheduler

inductive Act (τ : Type) where
  /-- `add_task(cb, thread)` from outside the loops -/
  | add_task (cb : Callback) (thread : Int)
  /-- `_stopping = true` in `stop` -/
  | stop
  /-- `add_task(cb, thread)` from the task that the loop runs -/
  | spawn (l : τ) (cb : Callback) (thread : Int)
  | run (l : τ)
  deriving DecidableEq, Repr

variable {τ : Type}

def initial : Scheduler τ where
  _queue := []
  _activeThreadCount := 0
  _idleThreadCount := 0
  _stopping := false
  loop := fun _ => ⟨.begin, false⟩
  added := 0
  executed := []

def stopping (s : Scheduler τ) : Bool :=
  s._stopping && s._queue.isEmpty && s._activeThreadCount == 0

def add_task (s : Scheduler τ) (cb : Callback) (thread : Int) : Scheduler τ :=
  { s with
    _queue := (add_task_nolock s._queue ⟨s.added, .ofCb cb thread⟩).2
    added := s.added + 1 }

variable [DecidableEq τ] (tid : τ → Int) (s : Scheduler τ)

def setPc (l : τ) (pc : LoopPc) : Scheduler τ :=
  { s with loop := Function.update s.loop l { s.loop l with pc } }

/-- The section of `run` under the mutex. -/
def scanQueue (l : τ) : Scheduler τ :=
  let r := scan (tid l) s._queue
  match r.task with
  | some q =>
    { s.setPc l (.execute q) with
      _queue := r.queue, _activeThreadCount := s._activeThreadCount + 1 }
  | none => { s.setPc l .nothing with _queue := r.queue }

def runLoop (l : τ) : Option (Scheduler τ) :=
  match (s.loop l).pc with
  | .begin => some (s.setPc l .scan)
  | .scan => some (s.scanQueue tid l)
  | .execute q => some { s.setPc l .returned with executed := s.executed ++ [q.number] }
  | .returned =>
    some { s.setPc l .scan with _activeThreadCount := s._activeThreadCount - 1 }
  | .nothing =>
    if (s.loop l).idleTerm then some (s.setPc l .exited)
    else some { s.setPc l .idle with _idleThreadCount := s._idleThreadCount + 1 }
  | .idle =>
    -- back in `run` after the `yield` or the end of the idle fiber
    some { s with
      loop := Function.update s.loop l ⟨.scan, s.stopping⟩
      _idleThreadCount := s._idleThreadCount - 1 }
  | .exited => none

def next : Act τ → Option (Scheduler τ)
  | .add_task cb thread => if s._stopping then none else some (s.add_task cb thread)
  | .stop => some { s with _stopping := true }
  | .spawn l cb thread =>
    match (s.loop l).pc with
    | .execute _ => some (s.add_task cb thread)
    | _ => none
  | .run l => s.runLoop tid l

def system : System (Scheduler τ) (Act τ) where
  init s := s = initial
  step s a s' := s.next tid a = some s'

theorem next_sound {s s' : Scheduler τ} {a : Act τ} (h : s.next tid a = some s') :
    (system tid).step s a s' := h

end Scheduler

end FiberAsync
