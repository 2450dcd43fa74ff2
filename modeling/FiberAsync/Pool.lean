import FiberAsync.EventThreads
import FiberAsync.Scheduler
import FiberAsync.TimerRuns

/-!
# The threads of an IOManager

`run` and `idle` of any number of threads, over one queue of tasks, one set of
timers and the event API. A loop that finds no task asks `stopping()`, which
makes its three reads one after the other, waits in `epoll_wait`, takes the
expired timers out of the set and copies their callbacks one by one to a vector
of its own, queues these one by one, and dispatches the reported events. Tasks,
and the threads that are not in `run`, queue tasks, operate on timers and call the
event API at any time. Only the last read of `stopping()` does not wait for the
lock of the timers: it may come while `listExpiredCb` is in its loop, and while
`refresh` or `reset` has erased the timer that it inserts again.
-/

namespace FiberAsync

set_option autoImplicit false

open Runs Results

/-- A callback that `listExpiredCb` has copied: its timer, and how many were copied before. -/
structure Firing where
  timer : TimerPtr
  number : Nat
  deriving DecidableEq, Repr

/-- An element of the vector `cbs` in `idle`. -/
abbrev Expired := Option Callback × Firing

/-- Who calls `stopping()`. -/
inductive Asker where
  | idle
  | stop
  deriving DecidableEq, Repr

inductive PoolPc where
  /-- not in `run` -/
  | outside
  /-- about to scan the queue -/
  | scan
  /-- has taken a task and not yet called it -/
  | starting (q : QueuedTask)
  | executing (q : QueuedTask)
  /-- the task has come back, `--_activeThreadCount` is next -/
  | returned
  /-- the scan found nothing -/
  | nothing
  /-- in `stopping()`, about to read `m_pendingEventCount` -/
  | readEvents (k : Asker)
  /-- it was zero, `Scheduler::stopping()` is next -/
  | readQueue (k : Asker)
  /-- it was true, `m_timers.size()` is next -/
  | readTimers (k : Asker)
  /-- in `stop`, about to set `_stopping` -/
  | stopping
  /-- in `idle`, before and in `epoll_wait` -/
  | waiting
  /-- in `idle`, before and in `listExpiredCb` -/
  | expiring
  /-- in the loop of `listExpiredCb`, with the rest of `expired` -/
  | delivering (cbs : List Expired) (rest : List TimerPtr)
  /-- in `idle`, with the rest of `cbs` -/
  | enqueueing (cbs : List Expired)
  /-- in `idle`, in the loop over the reports or about to yield -/
  | dispatching
  | exited
  deriving DecidableEq, Repr

structure Pool extends Threads where
  timers : TimerManager
  /-- the thread in `listExpiredCb` that holds the write lock of the timers between steps -/
  writer : Option Tid
  /-- the thread in `refresh` or `reset` that does, and the timer it has erased -/
  lifted : Option (Tid × TimerPtr)
  _queue : List QueuedTask
  _activeThreadCount : Nat
  _stopping : Bool
  loop : Tid → PoolPc
  /-- the idle fiber of the thread has terminated -/
  idleTerm : Tid → Bool
  added : Nat
  /-- for the number of a task, the callback that it is a copy of -/
  firing : Nat → Option Firing
  /-- how many callbacks have been copied -/
  fired : Nat
  /-- the fibers whose state is `READY` -/
  readyFiber : FiberId → Bool

inductive PoolAct where
  /-- the thread calls `run` -/
  | enter (t : Tid)
  /-- the thread calls `stop` -/
  | stop (t : Tid)
  | event (a : Act)
  | timer (t : Tid) (op : TimerOp)
  /-- `refresh` or `reset` up to where it has erased the timer -/
  | lift (t : Tid) (i : TimerPtr)
  | add_task (t : Tid) (task : ScheduleTask)
  /-- the next step of `run`, `idle` or `stop` -/
  | loop (t : Tid)
  /-- `epoll_wait` returns with reports -/
  | epoll_wait (t : Tid) (reports : List Report)
  /-- `epoll_wait` fails, with `EINTR` or not -/
  | epoll_error (t : Tid) (eintr : Bool)
  /-- `listExpiredCb` up to its loop -/
  | listExpiredCb (t : Tid) (c : ExpireCall)
  /-- one turn of its loop, and what it reads if the timer is recurring -/
  | deliver (t : Tid) (now : Millis)
  /-- the state of a fiber changes -/
  | fiber (t : Tid) (f : FiberId) (ready : Bool)

def PoolAct.tid : PoolAct → Tid
  | event a => a.tid
  | enter t | stop t | timer t _ | lift t _ | add_task t _ | loop t | epoll_wait t _
  | epoll_error t _ | listExpiredCb t _ | deliver t _ | fiber t _ _ => t

namespace Pool

/-- The `Scheduler*` of this IOManager. -/
def self : SchedulerId := 0

/-- The tasks among the waiters that are for this scheduler. -/
def handed (ws : List Waiter) : List ScheduleTask := (ws.filter (·.1 = self)).map Prod.snd

def initial (start : Millis) : Pool where
  toThreads := .initial
  timers := .new start
  writer := none
  lifted := none
  _queue := []
  _activeThreadCount := 0
  _stopping := false
  loop _ := .outside
  idleTerm _ := false
  added := 0
  firing _ := none
  fired := 0
  readyFiber _ := true

variable (s : Pool)

def setLoop (t : Tid) (pc : PoolPc) : Pool := { s with loop := Function.update s.loop t pc }

/-- `add_task` for a copied callback or for another task. -/
def push (f : Option Firing) (task : ScheduleTask) : Pool :=
  { s with
    _queue := (add_task_nolock s._queue ⟨s.added, task⟩).2
    added := s.added + 1
    firing := Function.update s.firing s.added f }

/-- The tasks of a call of the event API are pushed in their order. -/
def pushAll (tasks : List ScheduleTask) : Pool :=
  tasks.foldl (fun s task => s.push none task) s

/-- `Scheduler::stopping()` -/
def schedulerStopping : Bool := s._stopping && s._queue.isEmpty && s._activeThreadCount == 0

/-- The timers that `m_timers.size()` counts. -/
def counted : List TimerPtr :=
  s.timers.m_timers.filter fun i => s.lifted.all fun l => l.2 ≠ i

/-- The thread is in the middle of `refresh` or `reset`. -/
def lifting (t : Tid) : Bool := s.lifted.any fun l => l.1 = t

/-- The thread executes a task, or is not in `run`. -/
def free (t : Tid) : Bool :=
  match s.loop t with
  | .outside | .executing _ => !s.lifting t
  | _ => false

/-- A thread that is free and not inside a call of the event API. -/
def ready (t : Tid) : Bool := s.free t ∧ s.pc t = .outside

def event (a : Act) : Option Pool :=
  (s.toThreads.exec a).toOption.map fun th =>
    pushAll { s with toThreads := th } (handed (th.io.tasks.drop s.io.tasks.length))

/-- `idle` leaves its loop; the thread is back in `run`. -/
def terminate (t : Tid) : Pool :=
  { s.setLoop t .scan with idleTerm := Function.update s.idleTerm t true }

/-- `stopping()` returns. -/
def answer (t : Tid) : Asker → Bool → Pool
  | .idle, true => s.terminate t
  | .idle, false => s.setLoop t .waiting
  | .stop, true => s.setLoop t .outside
  | .stop, false => s.setLoop t .stopping

/-- The section of `run` under the mutex. A failed assertion ends the process. -/
def scanQueue (t : Tid) : Option Pool :=
  let r := FiberAsync.scan t s._queue
  match r.task with
  | some q =>
    if q.task.passes s.readyFiber then
      some { s.setLoop t (.starting q) with
        _queue := r.queue, _activeThreadCount := s._activeThreadCount + 1 }
    else none
  | none => some { s.setLoop t .nothing with _queue := r.queue }

def loopStep (t : Tid) : Option Pool :=
  match s.loop t with
  | .scan => s.scanQueue t
  | .starting q => some (s.setLoop t (.executing q))
  | .executing _ => if s.ready t then some (s.setLoop t .returned) else none
  | .returned =>
    some { s.setLoop t .scan with _activeThreadCount := s._activeThreadCount - 1 }
  | .nothing => some (s.setLoop t (if s.idleTerm t then .exited else .readEvents .idle))
  | .readEvents k =>
    if s.io.m_pendingEventCount = 0 then some (s.setLoop t (.readQueue k))
    else some (s.answer t k false)
  | .readQueue k =>
    if s.schedulerStopping then some (s.setLoop t (.readTimers k))
    else some (s.answer t k false)
  | .readTimers k => some (s.answer t k s.counted.isEmpty)
  | .stopping => some { s.setLoop t .outside with _stopping := true }
  | .delivering cbs [] => some { s.setLoop t (.enqueueing cbs) with writer := none }
  | .enqueueing [] => some (s.setLoop t .dispatching)
  | .enqueueing ((cb, f) :: cbs) => some ((s.setLoop t (.enqueueing cbs)).push f ⟨none, cb, -1⟩)
  | .dispatching => if s.pc t = .outside then some (s.setLoop t .scan) else none
  | .outside | .waiting | .expiring | .delivering _ (_ :: _) | .exited => none

/-- A call that saw no timer under the read lock returns at once; another one takes
the write lock and fills `expired`. -/
def listExpiredCb (t : Tid) (c : ExpireCall) : Pool :=
  if c.sawEmpty then s.setLoop t (.enqueueing [])
  else
    let (expired, m) := s.timers.takeExpired c
    { s.setLoop t (.delivering [] expired) with timers := m, writer := some t }

def deliver (t : Tid) (now : Millis) : Option Pool :=
  match s.loop t with
  | .delivering cbs (i :: rest) =>
    let e := Expiry.deliver ⟨s.timers, [], now, []⟩ i
    some { s.setLoop t (.delivering (cbs ++ e.cbs.map fun cb => (cb, ⟨i, s.fired⟩)) rest) with
      timers := e.manager, fired := s.fired + 1 }
  | _ => none

/-- What a thread may do with timers: `getNextTimer` is called in `idle`. A thread that
has erased a timer puts it back, and no other thread gets the lock before. -/
def mayOperate (t : Tid) (op : TimerOp) : Bool :=
  match s.lifted, op with
  | some (u, i), op => u = t ∧ op.reinserts i
  | none, .listExpiredCb _ => false
  | none, .getNextTimer _ => s.loop t = .waiting
  | none, _ => s.ready t

/-- A timer that `refresh` or `reset` erases is in the set and has a callback. -/
def mayLift (t : Tid) (i : TimerPtr) : Bool :=
  s.ready t ∧ i ∈ s.timers.m_timers ∧ (s.timers.heap i).m_cb.isSome

def exec : PoolAct → Option Pool
  | .enter t =>
    if s.loop t = .outside ∧ s.ready t then some (s.setLoop t .scan) else none
  | .stop t =>
    if s.loop t = .outside ∧ s.ready t then some (s.setLoop t (.readEvents .stop)) else none
  | .event a =>
    match a with
    | .addEvent t _ | .remove t _ _ => if s.free t then s.event a else none
    | .run t => if s.free t ∨ s.loop t = .dispatching then s.event a else none
    | .report _ _ => none
  | .timer t op =>
    if s.writer = none ∧ s.mayOperate t op then
      (s.timers.next op).map fun m => { s with timers := m, lifted := none }
    else none
  | .lift t i =>
    if s.writer = none ∧ s.lifted = none ∧ s.mayLift t i then some { s with lifted := some (t, i) }
    else none
  | .add_task t task => if s.ready t then some (s.push none task) else none
  | .loop t => s.loopStep t
  | .epoll_wait t reports =>
    if s.loop t = .waiting then (s.event (.report t reports)).map fun s => s.setLoop t .expiring
    else none
  | .epoll_error t eintr =>
    if s.loop t = .waiting then
      some (if eintr then s.setLoop t (.readEvents .idle) else s.terminate t)
    else none
  | .listExpiredCb t c =>
    if s.loop t = .expiring ∧ s.writer = none ∧ s.lifted = none then some (s.listExpiredCb t c)
    else none
  | .deliver t now => s.deliver t now
  | .fiber _ f ready => some { s with readyFiber := Function.update s.readyFiber f ready }

def Allowed : PoolAct → Prop
  | .event a => s.toThreads.Allowed a
  | .epoll_wait t reports => s.toThreads.Allowed (.report t reports)
  | _ => True

def allows : PoolAct → Bool
  | .event a => s.toThreads.allows a
  | .epoll_wait t reports => s.toThreads.allows (.report t reports)
  | _ => true

def system : System Pool PoolAct where
  init s := ∃ start, s = initial start
  step s a s' := s.Allowed a ∧ s.exec a = some s'

def next (a : PoolAct) : Option Pool := if s.allows a then s.exec a else none

theorem next_sound {s s' : Pool} {a : PoolAct} (h : s.next a = some s') : system.step s a s' := by
  obtain ⟨hallows, h⟩ := Option.ite_none_right_eq_some.mp h
  refine ⟨?_, h⟩
  cases a with
  | event a => exact Threads.allowed_of_allows hallows
  | epoll_wait t reports => exact Threads.allowed_of_allows (a := .report t reports) hallows
  | _ => trivial

variable {s s' : Pool} {a : PoolAct} {t u : Tid} {pc : PoolPc}

/-- What the next step of a loop can do. -/
inductive LoopStep (s : Pool) (t : Tid) : Pool → Prop where
  | found (skipped : List QueuedTask) (q : QueuedTask) (rest : List QueuedTask) :
      s.loop t = .scan → s._queue = skipped ++ q :: rest →
      (∀ x ∈ skipped, x.eligible t = false) → q.task.passes s.readyFiber = true →
      LoopStep s t { s.setLoop t (.starting q) with
        _queue := skipped ++ rest, _activeThreadCount := s._activeThreadCount + 1 }
  | nothing : s.loop t = .scan → LoopStep s t (s.setLoop t .nothing)
  | start (q : QueuedTask) : s.loop t = .starting q → LoopStep s t (s.setLoop t (.executing q))
  | back (q : QueuedTask) : s.loop t = .executing q → s.pc t = .outside →
      LoopStep s t (s.setLoop t .returned)
  | count : s.loop t = .returned →
      LoopStep s t { s.setLoop t .scan with _activeThreadCount := s._activeThreadCount - 1 }
  | leave : s.loop t = .nothing → LoopStep s t (s.setLoop t .exited)
  | ask : s.loop t = .nothing → LoopStep s t (s.setLoop t (.readEvents .idle))
  | noEvents (k : Asker) : s.loop t = .readEvents k → s.io.m_pendingEventCount = 0 →
      LoopStep s t (s.setLoop t (.readQueue k))
  | drained (k : Asker) : s.loop t = .readQueue k → s.schedulerStopping = true →
      LoopStep s t (s.setLoop t (.readTimers k))
  | yes (k : Asker) : s.loop t = .readTimers k → s.counted = [] →
      LoopStep s t (s.answer t k true)
  | no (k : Asker) : s.loop t = .readEvents k ∨ s.loop t = .readQueue k ∨
      s.loop t = .readTimers k → LoopStep s t (s.answer t k false)
  | stop : s.loop t = .stopping → LoopStep s t { s.setLoop t .outside with _stopping := true }
  | delivered (cbs : List Expired) : s.loop t = .delivering cbs [] →
      LoopStep s t { s.setLoop t (.enqueueing cbs) with writer := none }
  | enqueue (cb : Option Callback) (f : Firing) (cbs : List Expired) :
      s.loop t = .enqueueing ((cb, f) :: cbs) →
      LoopStep s t ((s.setLoop t (.enqueueing cbs)).push f ⟨none, cb, -1⟩)
  | enqueued : s.loop t = .enqueueing [] → LoopStep s t (s.setLoop t .dispatching)
  | yield : s.loop t = .dispatching → s.pc t = .outside → LoopStep s t (s.setLoop t .scan)

theorem scanQueue_eq_some (hpc : s.loop t = .scan) (h : s.scanQueue t = some s') :
    LoopStep s t s' := by
  unfold scanQueue at h
  have hscan := scanned t s._queue
  generalize FiberAsync.scan t s._queue = r at hscan h
  cases hscan with
  | found skipped q rest hqueue hskip _ =>
    obtain ⟨hpasses, heq⟩ := Option.ite_none_right_eq_some.mp h
    cases heq
    exact .found skipped q rest hpc hqueue hskip hpasses
  | nothing _ =>
    cases h
    exact .nothing hpc

theorem loopStep_of_eq (h : s.loopStep t = some s') : LoopStep s t s' := by
  unfold loopStep at h
  split at h
  case h_1 hpc => exact scanQueue_eq_some hpc h
  case h_2 q hpc =>
    cases h
    exact .start q hpc
  case h_3 q hpc =>
    obtain ⟨hready, h⟩ := Option.ite_none_right_eq_some.mp h
    cases h
    exact .back q hpc (of_decide_eq_true hready).2
  case h_4 hpc =>
    cases h
    exact .count hpc
  case h_5 hpc =>
    cases h
    split
    · exact .leave hpc
    · exact .ask hpc
  case h_6 k hpc =>
    split at h <;> cases h
    case isTrue hzero => exact .noEvents k hpc hzero
    case isFalse => exact .no k (Or.inl hpc)
  case h_7 k hpc =>
    split at h <;> cases h
    case isTrue hstop => exact .drained k hpc hstop
    case isFalse => exact .no k (Or.inr (Or.inl hpc))
  case h_8 k hpc =>
    cases h
    cases hempty : s.counted.isEmpty with
    | true => exact .yes k hpc (List.isEmpty_iff.mp hempty)
    | false => exact .no k (Or.inr (Or.inr hpc))
  case h_9 hpc =>
    cases h
    exact .stop hpc
  case h_10 cbs hpc =>
    cases h
    exact .delivered cbs hpc
  case h_11 hpc =>
    cases h
    exact .enqueued hpc
  case h_12 cb f cbs hpc =>
    cases h
    exact .enqueue cb f cbs hpc
  case h_13 hpc =>
    obtain ⟨hout, h⟩ := Option.ite_none_right_eq_some.mp h
    cases h
    exact .yield hpc hout
  all_goals cases h

/-- What one step can do. -/
inductive Stepped (s : Pool) : PoolAct → Pool → Prop where
  | enter (t : Tid) : s.loop t = .outside → s.pc t = .outside →
      Stepped s (.enter t) (s.setLoop t .scan)
  | stop (t : Tid) : s.loop t = .outside → s.pc t = .outside →
      Stepped s (.stop t) (s.setLoop t (.readEvents .stop))
  | event (a : Act) (th : Threads) : s.free a.tid ∨ s.loop a.tid = .dispatching ∧ a = .run a.tid →
      (∀ t reports, a ≠ .report t reports) → s.toThreads.Allowed a → s.toThreads.exec a = .ok th →
      Stepped s (.event a) (pushAll { s with toThreads := th }
        (handed (th.io.tasks.drop s.io.tasks.length)))
  | timer (t : Tid) (op : TimerOp) (m : TimerManager) : s.writer = none →
      s.mayOperate t op = true → s.timers.next op = some m →
      Stepped s (.timer t op) { s with timers := m, lifted := none }
  | lift (t : Tid) (i : TimerPtr) : s.mayLift t i = true →
      Stepped s (.lift t i) { s with lifted := some (t, i) }
  | add_task (t : Tid) (task : ScheduleTask) : s.ready t = true →
      Stepped s (.add_task t task) (s.push none task)
  | loop (t : Tid) {s' : Pool} : LoopStep s t s' → Stepped s (.loop t) s'
  | epoll_wait (t : Tid) (reports : List Report) (th : Threads) : s.loop t = .waiting →
      s.toThreads.exec (.report t reports) = .ok th → Stepped s (.epoll_wait t reports)
        (setLoop { s with toThreads := th } t .expiring)
  | epoll_again (t : Tid) : s.loop t = .waiting →
      Stepped s (.epoll_error t true) (s.setLoop t (.readEvents .idle))
  | epoll_failed (t : Tid) : s.loop t = .waiting →
      Stepped s (.epoll_error t false) (s.terminate t)
  | sawEmpty (t : Tid) (c : ExpireCall) : s.loop t = .expiring → c.sawEmpty = true →
      Stepped s (.listExpiredCb t c) (s.setLoop t (.enqueueing []))
  | listExpiredCb (t : Tid) (c : ExpireCall) : s.loop t = .expiring → s.writer = none →
      s.lifted = none → Stepped s (.listExpiredCb t c)
        { s.setLoop t (.delivering [] (s.timers.takeExpired c).1) with
          timers := (s.timers.takeExpired c).2, writer := some t }
  | deliver (t : Tid) (now : Millis) (cbs : List Expired) (i : TimerPtr) (rest : List TimerPtr) :
      s.loop t = .delivering cbs (i :: rest) → Stepped s (.deliver t now)
        { s.setLoop t (.delivering (cbs ++ [((s.timers.heap i).m_cb, ⟨i, s.fired⟩)]) rest) with
          timers := (Expiry.deliver ⟨s.timers, [], now, []⟩ i).manager, fired := s.fired + 1 }
  | fiber (t : Tid) (f : FiberId) (ready : Bool) : Stepped s (.fiber t f ready)
      { s with readyFiber := Function.update s.readyFiber f ready }

theorem mayOperate_listExpiredCb {c : ExpireCall} :
    s.mayOperate t (.listExpiredCb c) = false := by
  unfold mayOperate
  cases s.lifted with
  | none => rfl
  | some l => exact decide_eq_false fun h => Bool.false_ne_true h.2

theorem event_eq_some {a : Act} (h : s.event a = some s') : ∃ th, s.toThreads.exec a = .ok th ∧
    s' = pushAll { s with toThreads := th } (handed (th.io.tasks.drop s.io.tasks.length)) := by
  obtain ⟨th, hth, heq⟩ := Option.map_eq_some_iff.mp h
  exact ⟨th, toOption_eq_some.mp hth, heq.symm⟩

theorem deliver_eq_some {now : Millis} (h : s.deliver t now = some s') :
    Stepped s (.deliver t now) s' := by
  unfold deliver at h
  split at h
  case h_1 cbs i rest hpc =>
    cases h
    rw [Expiry.deliver_cbs]
    exact .deliver t now cbs i rest hpc
  case h_2 => cases h

theorem stepped (hs : system.step s a s') : Stepped s a s' := by
  obtain ⟨hallowed, h⟩ := hs
  cases a with
  | enter t =>
    obtain ⟨⟨hloop, hready⟩, heq⟩ := Option.ite_none_right_eq_some.mp h
    cases heq
    exact .enter t hloop (of_decide_eq_true hready).2
  | stop t =>
    obtain ⟨⟨hloop, hready⟩, heq⟩ := Option.ite_none_right_eq_some.mp h
    cases heq
    exact .stop t hloop (of_decide_eq_true hready).2
  | event a =>
    cases a with
    | addEvent t c =>
      obtain ⟨hfree, h⟩ := Option.ite_none_right_eq_some.mp h
      obtain ⟨th, hth, rfl⟩ := event_eq_some h
      exact .event _ th (Or.inl hfree) (by simp) hallowed hth
    | remove t k fd =>
      obtain ⟨hfree, h⟩ := Option.ite_none_right_eq_some.mp h
      obtain ⟨th, hth, rfl⟩ := event_eq_some h
      exact .event _ th (Or.inl hfree) (by simp) hallowed hth
    | run t =>
      obtain ⟨hfree, h⟩ := Option.ite_none_right_eq_some.mp h
      obtain ⟨th, hth, rfl⟩ := event_eq_some h
      exact .event _ th (hfree.imp_right fun hloop => ⟨hloop, rfl⟩) (by simp) hallowed hth
    | report t reports => cases h
  | timer t op =>
    obtain ⟨⟨hw, hmay⟩, h⟩ := Option.ite_none_right_eq_some.mp h
    obtain ⟨m, hm, heq⟩ := Option.map_eq_some_iff.mp h
    cases heq
    exact .timer t op m hw hmay hm
  | lift t i =>
    obtain ⟨⟨_, _, hmay⟩, heq⟩ := Option.ite_none_right_eq_some.mp h
    cases heq
    exact .lift t i hmay
  | add_task t task =>
    obtain ⟨hready, heq⟩ := Option.ite_none_right_eq_some.mp h
    cases heq
    exact .add_task t task hready
  | loop t => exact .loop t (loopStep_of_eq h)
  | epoll_wait t reports =>
    obtain ⟨hloop, h⟩ := Option.ite_none_right_eq_some.mp h
    obtain ⟨s₁, hs₁, heq⟩ := Option.map_eq_some_iff.mp h
    obtain ⟨th, hth, rfl⟩ := event_eq_some hs₁
    cases heq
    obtain ⟨_, rfl⟩ := Threads.start_ok_iff.mp hth
    simp only [List.drop_length]
    exact .epoll_wait t reports _ hloop hth
  | epoll_error t eintr =>
    obtain ⟨hloop, heq⟩ := Option.ite_none_right_eq_some.mp h
    cases heq
    cases eintr with
    | true => exact .epoll_again t hloop
    | false => exact .epoll_failed t hloop
  | listExpiredCb t c =>
    obtain ⟨⟨hloop, hw, hlifted⟩, heq⟩ := Option.ite_none_right_eq_some.mp h
    cases heq
    unfold listExpiredCb
    split
    case isTrue hempty => exact .sawEmpty t c hloop hempty
    case isFalse => exact .listExpiredCb t c hloop hw hlifted
  | deliver t now => exact deliver_eq_some h
  | fiber t f ready =>
    cases h
    exact .fiber t f ready

end Pool

end FiberAsync
