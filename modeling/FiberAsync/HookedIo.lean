import FiberAsync.Pool
import FiberAsync.StatusFlags

/-!
# Fibers in do_io and close

The hooked functions that put a fiber to sleep, and `close`, one statement after
the other, for any number of fibers of one IOManager. A fiber stands for the
thread that executes it: inside a call of the event API it takes the steps of
`Threads`, and after `yield` it is resumed when a thread takes a task for it out
of the queue. The task is taken once the fiber is suspended: a `resume` in the
middle of `yield`, which nothing excludes, is left out. The other hooked calls are
one step each. `addEvent` without a callback waits with the current fiber; where it
throws, so does `do_io`, and a caller that catches that goes on. The lock of
`FdManager` is left out. `addConditionTimer` is not part of the repository: the
callback of a condition timer may be called at any time from when the timer is added,
and more than once.
-/

namespace FiberAsync

set_option autoImplicit false

open Runs Results

structure IoCall where
  fn : IoFun
  fd : Nat
  deriving DecidableEq, Repr

/-- `timer_info`; `none` is the value 0. -/
structure TimerInfo where
  cnacelled : Option Errno := none
  deriving DecidableEq, Repr

/-- The variables `to` and `tinfo` of `do_io`. -/
structure IoWait where
  timeout : BitVec 64
  tinfo : Nat
  deriving DecidableEq, Repr

/-- What the callback of a condition timer captures. -/
structure CondTimer where
  fd : Nat
  event : Event
  tinfo : Nat
  deriving DecidableEq, Repr

inductive ClosePc where
  | get
  | cancelAll
  | del
  | close_f
  deriving DecidableEq, Repr

inductive IoPc where
  /-- in none of the functions below -/
  | outside
  /-- in `do_io`, before the tests of the context -/
  | entry (c : IoCall)
  /-- about to `return fun(fd, ..)` -/
  | direct (c : IoCall)
  /-- at `retry`, or in the loop after it -/
  | attempt (c : IoCall) (w : IoWait)
  /-- `EAGAIN`: the condition timer is next -/
  | arm (c : IoCall) (w : IoWait)
  | addEvent (c : IoCall) (w : IoWait)
  /-- in `addEvent`, then about to yield -/
  | yield (c : IoCall) (w : IoWait)
  /-- `addEvent` has thrown, and leaves its section -/
  | threw (c : IoCall) (w : IoWait)
  | suspended (c : IoCall) (w : IoWait)
  /-- resumed, about to read `tinfo->cnacelled` -/
  | resumed (c : IoCall) (w : IoWait)
  | returned (c : IoCall) (r : Returned Nat)
  | closing (fd : Nat) (at_ : ClosePc)
  /-- in the callback of a condition timer, about to call `cancelEvent` -/
  | timedOut (fd : Nat) (event : Event)
  deriving DecidableEq, Repr

/-- The underlying call that the fiber makes next. -/
def IoPc.calls : IoPc → Option IoCall
  | direct c | attempt c _ => some c
  | _ => none

/-- The hooked calls that do not go through `do_io`, `close` apart. -/
def Call.single : Call → Bool
  | accept _ _ | close _ => false
  | _ => true

structure IoFibers extends Threads where
  kernel : Files
  fdMgr : FdManager
  fiber : FiberId → IoPc
  _queue : List ScheduleTask
  /-- the objects that a `tinfo` points to, as long as `do_io` has not returned -/
  infos : Nat → Option TimerInfo
  allocated : Nat
  condTimers : List CondTimer

inductive IoAct where
  /-- a fiber calls a hooked function that does I/O -/
  | io (i : FiberId) (c : IoCall)
  | close (i : FiberId) (fd : Nat)
  /-- another hooked call -/
  | hooked (i : FiberId) (c : Call)
  /-- the next statement of the fiber, if it is not an underlying call in `do_io` -/
  | run (i : FiberId)
  /-- the underlying call in `do_io` returns -/
  | result (i : FiberId) (r : Returned Nat)
  /-- a thread takes a task of the queue and resumes its fiber in `do_io` -/
  | resume (i : FiberId) (n : Nat)
  /-- a thread takes another task -/
  | take (n : Nat)
  | add_task (task : ScheduleTask)
  /-- a call of the event API, a report, or a step in such a call -/
  | event (a : Act)
  /-- a fiber calls the callback of a condition timer -/
  | timeout (i : FiberId) (k : Nat)

namespace IoFibers

def initial (files : Files) : IoFibers where
  toThreads := .initial
  kernel := files
  fdMgr := .initial
  fiber _ := .outside
  _queue := []
  infos _ := none
  allocated := 0
  condTimers := []

variable (s : IoFibers)

/-- What the hooked functions of a worker thread see. -/
def proc : Process Files where
  kernel := s.kernel
  fdMgr := s.fdMgr
  iom := some s.io
  t_hook_enable := true

def setFiber (i : FiberId) (pc : IoPc) : IoFibers :=
  { s with fiber := Function.update s.fiber i pc }

/-- After a call that leaves the IOManager alone. -/
def called (p : Process Files) : IoFibers := { s with kernel := p.kernel, fdMgr := p.fdMgr }

/-- The fiber is not in a call of the event API. -/
def free (i : FiberId) : Bool := s.pc i = .outside

/-- The fiber executes code outside the hook layer. -/
def ready (i : FiberId) : Bool := s.fiber i = .outside ∧ s.pc i = .outside

/-- After a step of the event API, whose tasks have been queued. -/
def stepped (th : Threads) : IoFibers :=
  { s with
    toThreads := th
    _queue := s._queue ++ Pool.handed (th.io.tasks.drop s.io.tasks.length) }

def event (a : Act) : Option IoFibers := (s.toThreads.exec a).toOption.map s.stepped

/-- `iom->addEvent(fd, (Event)(event))` -/
def addCall (i : FiberId) (c : IoCall) : AddCall where
  fd := c.fd
  event := c.fn.event
  cb := none
  caller := ⟨some Pool.self, i, true⟩

/-- The `addEvent` of `do_io` is about to throw. -/
def throws (i : FiberId) : Bool :=
  match s.fiber i, s.pc i with
  | .yield _ _, .addLocked c _ p => (s.io.contexts p).m_events.has c.event
  | _, _ => false

/-- Nothing in `do_io` catches what `addEvent` throws. -/
def unwind (i : FiberId) : IoFibers :=
  match s.fiber i with
  | .yield c w => s.setFiber i (.threw c w)
  | _ => s

/-- `do_io` is left for `pc` and drops its `tinfo`. -/
def leave (i : FiberId) (w : IoWait) (pc : IoPc) : IoFibers :=
  { s.setFiber i pc with infos := Function.update s.infos w.tinfo none }

def finish (i : FiberId) (c : IoCall) (w : IoWait) (r : Returned Nat) : IoFibers :=
  s.leave i w (.returned c r)

/-- What an underlying call changes in the kernel: `accept_f` opens a descriptor. -/
def answered (c : IoCall) (r : Returned Nat) : IoFibers :=
  match c.fn, r with
  | .accept, .ok next => { s with kernel := ((Files.linux next).accept_f c.fd s.kernel).2 }
  | _, _ => s

/-- `close_f(fd)`; a closed descriptor leaves the interest list. -/
def close_f (fd : Nat) : IoFibers :=
  { s with
    kernel := ((Files.linux 0).close_f fd s.kernel).2
    io := { s.io with epoll := Function.update s.io.epoll fd none } }

def closeStep (i : FiberId) (fd : Nat) : ClosePc → Option IoFibers
  | .get =>
    match s.fdMgr.get fd with
    | .ok (some _) => some (s.setFiber i (.closing fd .cancelAll))
    | .ok none => some (s.setFiber i (.closing fd .close_f))
    | .error _ => none
  | .cancelAll => (s.setFiber i (.closing fd .del)).event (.remove i .cancelAll fd)
  | .del =>
    match s.fdMgr.del fd with
    | .ok fdMgr => some { s.setFiber i (.closing fd .close_f) with fdMgr }
    | .error _ => none
  | .close_f => some ((s.setFiber i .outside).close_f fd)

/-- The next statement of a fiber that is not in a call of the event API. -/
def runStep (i : FiberId) : Option IoFibers :=
  match s.fiber i with
  | .entry c =>
    match s.proc.ioEntry c.fd c.fn.timeout_so with
    | .ok .direct => some (s.setFiber i (.direct c))
    | .ok .closed => some (s.setFiber i (.returned c (.error .EBADF)))
    | .ok (.wait timeout) =>
      some { s.setFiber i (.attempt c ⟨timeout, s.allocated⟩) with
        infos := Function.update s.infos s.allocated (some {})
        allocated := s.allocated + 1 }
    | .error _ => none
  | .arm c w =>
    if w.timeout ≠ -1 then
      some { s.setFiber i (.addEvent c w) with
        condTimers := s.condTimers ++ [⟨c.fd, c.fn.event, w.tinfo⟩] }
    else some (s.setFiber i (.addEvent c w))
  | .addEvent c w => (s.setFiber i (.yield c w)).event (.addEvent i (addCall i c))
  | .yield c w => some (s.setFiber i (.suspended c w))
  | .threw _ w => some (s.leave i w .outside)
  -- `timer->cancel()` comes first; the callback may have been copied already
  | .resumed c w =>
    match s.infos w.tinfo with
    | some ⟨some e⟩ => some (s.finish i c w (.error e))
    | _ => some (s.setFiber i (.attempt c w))
  | .returned c r =>
    match c.fn, r with
    | .accept, .ok fd =>
      match s.proc.getCreate (Files.linux 0) fd with
      | .ok (_, p) => some ((s.setFiber i .outside).called p)
      | .error _ => none
    | _, _ => some (s.setFiber i .outside)
  | .closing fd at_ => s.closeStep i fd at_
  | .timedOut fd e => (s.setFiber i .outside).event (.remove i (.cancelEvent e) fd)
  | .outside | .direct _ | .attempt _ _ | .suspended _ _ => none

/-- The underlying call of a fiber in `do_io` has returned. -/
def result (i : FiberId) (r : Returned Nat) : Option IoFibers :=
  match s.fiber i with
  | .direct c => some ((s.answered c r).setFiber i (.returned c r))
  | .attempt c w =>
    match (IoEntry.wait w.timeout).after r with
    | .returns r => some ((s.answered c r).finish i c w r)
    | .retry => some s
    | .suspend _ => some (s.setFiber i (.arm c w))
  | _ => none

def resume (i : FiberId) (n : Nat) : Option IoFibers :=
  match s.fiber i, s._queue[n]? with
  | .suspended c w, some task =>
    if task.fiber = some i then
      some { s.setFiber i (.resumed c w) with _queue := s._queue.eraseIdx n }
    else none
  | _, _ => none

/-- The callback of a condition timer, up to its call of `cancelEvent`. -/
def timeout (i : FiberId) (t : CondTimer) : IoFibers :=
  match s.infos t.tinfo with
  | some ⟨none⟩ =>
    { s.setFiber i (.timedOut t.fd t.event) with
      infos := Function.update s.infos t.tinfo (some ⟨some .ETIMEDOUT⟩) }
  | _ => s

def exec : IoAct → Option IoFibers
  | .io i c => if s.ready i then some (s.setFiber i (.entry c)) else none
  | .close i fd => if s.ready i then some (s.setFiber i (.closing fd .get)) else none
  | .hooked i c =>
    if s.ready i ∧ c.single then (s.proc.exec c).toOption.map s.called else none
  | .run i => if s.free i then s.runStep i else none
  | .result i r => s.result i r
  | .resume i n => s.resume i n
  | .take n =>
    match s._queue[n]? with
    | some task =>
      if task.fiber.all fun i => s.fiber i = .outside then
        some { s with _queue := s._queue.eraseIdx n }
      else none
    | none => none
  | .add_task task => some { s with _queue := s._queue ++ [task] }
  | .event a =>
    match a with
    | .run i => if s.throws i then (s.event a).map (·.unwind i) else s.event a
    | _ => if s.ready a.tid then s.event a else none
  | .timeout i k => if s.ready i then s.condTimers[k]?.map (s.timeout i) else none

/-- What an underlying call can return: `EBADF` on a number that is not open and
never on a socket, and from `accept_f` a number that was not open. -/
def Answer (c : IoCall) (r : Returned Nat) : Prop :=
  match s.kernel c.fd, r with
  | none, r => r = .error .EBADF
  | some f, .error e => f.isSock = true → e ≠ .EBADF
  | some _, .ok n => c.fn = .accept → s.kernel n = none ∧ n ≤ INT_MAX

instance (c : IoCall) (r : Returned Nat) : Decidable (s.Answer c r) := by
  unfold Answer
  split <;> infer_instance

def Allowed : IoAct → Prop
  | .io _ c => c.fd ≤ INT_MAX
  | .close _ fd => fd ≤ INT_MAX
  | .hooked _ c => c.creates = true → s.kernel c.target = none ∧ c.target ≤ INT_MAX
  | .result i r => ∀ c, (s.fiber i).calls = some c → s.Answer c r
  | .event a => s.toThreads.Allowed a
  | _ => True

def allows : IoAct → Bool
  | .io _ c => c.fd ≤ INT_MAX
  | .close _ fd => fd ≤ INT_MAX
  | .hooked _ c => c.creates = true → s.kernel c.target = none ∧ c.target ≤ INT_MAX
  | .result i r => (s.fiber i).calls.all fun c => s.Answer c r
  | .event a => s.toThreads.allows a
  | _ => true

def system : System IoFibers IoAct where
  init s := ∃ files, s = initial files
  step s a s' := s.Allowed a ∧ s.exec a = some s'

def next (a : IoAct) : Option IoFibers := if s.allows a then s.exec a else none

theorem next_sound {s s' : IoFibers} {a : IoAct} (h : s.next a = some s') : system.step s a s' := by
  obtain ⟨hallows, h⟩ := Option.ite_none_right_eq_some.mp h
  refine ⟨?_, h⟩
  cases a with
  | io i c => exact of_decide_eq_true (p := c.fd ≤ INT_MAX) hallows
  | close i fd => exact of_decide_eq_true (p := fd ≤ INT_MAX) hallows
  | hooked i c =>
    exact of_decide_eq_true (p := c.creates = true → s.kernel c.target = none ∧ c.target ≤ INT_MAX)
      hallows
  | result i r =>
    intro c hc
    change (s.fiber i).calls.all (fun c => decide (s.Answer c r)) = true at hallows
    rw [hc] at hallows
    exact of_decide_eq_true hallows
  | event a => exact Threads.allowed_of_allows hallows
  | _ => trivial

variable {s s' : IoFibers} {a : IoAct} {i : FiberId}

/-- What the next statement of a fiber can do. -/
inductive RunStep (s : IoFibers) (i : FiberId) : IoFibers → Prop where
  | direct (c : IoCall) : s.fiber i = .entry c → RunStep s i (s.setFiber i (.direct c))
  | closed (c : IoCall) : s.fiber i = .entry c →
      RunStep s i (s.setFiber i (.returned c (.error .EBADF)))
  | wait (c : IoCall) (timeout : BitVec 64) : s.fiber i = .entry c →
      RunStep s i { s.setFiber i (.attempt c ⟨timeout, s.allocated⟩) with
        infos := Function.update s.infos s.allocated (some {})
        allocated := s.allocated + 1 }
  | arm (c : IoCall) (w : IoWait) (condTimers : List CondTimer) : s.fiber i = .arm c w →
      RunStep s i { s.setFiber i (.addEvent c w) with condTimers }
  | addEvent (c : IoCall) (w : IoWait) (th : Threads) : s.fiber i = .addEvent c w →
      s.toThreads.exec (.addEvent i (addCall i c)) = .ok th →
      RunStep s i ((s.setFiber i (.yield c w)).stepped th)
  | yield (c : IoCall) (w : IoWait) : s.fiber i = .yield c w →
      RunStep s i (s.setFiber i (.suspended c w))
  | threw (c : IoCall) (w : IoWait) : s.fiber i = .threw c w →
      RunStep s i (s.leave i w .outside)
  | expired (c : IoCall) (w : IoWait) (e : Errno) : s.fiber i = .resumed c w →
      s.infos w.tinfo = some ⟨some e⟩ → RunStep s i (s.finish i c w (.error e))
  | again (c : IoCall) (w : IoWait) : s.fiber i = .resumed c w →
      RunStep s i (s.setFiber i (.attempt c w))
  | created (c : IoCall) (fd : Nat) (o : Option FdCtxPtr) (p : Process Files) :
      s.fiber i = .returned c (.ok fd) → s.proc.getCreate (Files.linux 0) fd = .ok (o, p) →
      RunStep s i ((s.setFiber i .outside).called p)
  | back (c : IoCall) (r : Returned Nat) : s.fiber i = .returned c r →
      RunStep s i (s.setFiber i .outside)
  | get (fd : Nat) (at_ : ClosePc) : s.fiber i = .closing fd .get →
      RunStep s i (s.setFiber i (.closing fd at_))
  | cancelAll (fd : Nat) (th : Threads) : s.fiber i = .closing fd .cancelAll →
      s.toThreads.exec (.remove i .cancelAll fd) = .ok th →
      RunStep s i ((s.setFiber i (.closing fd .del)).stepped th)
  | del (fd : Nat) (fdMgr : FdManager) : s.fiber i = .closing fd .del →
      s.fdMgr.del fd = .ok fdMgr → RunStep s i { s.setFiber i (.closing fd .close_f) with fdMgr }
  | close_f (fd : Nat) : s.fiber i = .closing fd .close_f →
      RunStep s i ((s.setFiber i .outside).close_f fd)
  | timedOut (fd : Nat) (e : Event) (th : Threads) : s.fiber i = .timedOut fd e →
      s.toThreads.exec (.remove i (.cancelEvent e) fd) = .ok th →
      RunStep s i ((s.setFiber i .outside).stepped th)

theorem event_eq_some {a : Act} (h : s.event a = some s') :
    ∃ th, s.toThreads.exec a = .ok th ∧ s' = s.stepped th := by
  obtain ⟨th, hth, rfl⟩ := Option.map_eq_some_iff.mp h
  exact ⟨th, toOption_eq_some.mp hth, rfl⟩

theorem closeStep_runStep {fd : Nat} {at_ : ClosePc} (hpc : s.fiber i = .closing fd at_)
    (h : s.closeStep i fd at_ = some s') : RunStep s i s' := by
  cases at_ with
  | get =>
    simp only [closeStep] at h
    split at h <;> cases h
    all_goals exact .get fd _ hpc
  | cancelAll =>
    obtain ⟨th, hth, rfl⟩ := event_eq_some h
    exact .cancelAll fd th hpc hth
  | del =>
    simp only [closeStep] at h
    split at h <;> cases h
    case h_1 fdMgr hdel => exact .del fd fdMgr hpc hdel
  | close_f =>
    cases h
    exact .close_f fd hpc

theorem runStep_of_eq (h : s.runStep i = some s') : RunStep s i s' := by
  unfold runStep at h
  split at h
  case h_1 c hpc =>
    split at h <;> cases h
    case h_1 => exact .direct c hpc
    case h_2 => exact .closed c hpc
    case h_3 timeout _ => exact .wait c timeout hpc
  case h_2 c w hpc =>
    split at h <;> cases h
    all_goals exact .arm c w _ hpc
  case h_3 c w hpc =>
    obtain ⟨th, hth, rfl⟩ := event_eq_some h
    exact .addEvent c w th hpc hth
  case h_4 c w hpc =>
    cases h
    exact .yield c w hpc
  case h_5 c w hpc =>
    cases h
    exact .threw c w hpc
  case h_6 c w hpc =>
    split at h <;> cases h
    case h_1 e he => exact .expired c w e hpc he
    case h_2 => exact .again c w hpc
  case h_7 c r hpc =>
    split at h
    case h_1 _ fd _ =>
      split at h <;> cases h
      case h_1 o p hp => exact .created c fd o p hpc hp
    case h_2 =>
      cases h
      exact .back c _ hpc
  case h_8 fd at_ hpc => exact closeStep_runStep hpc h
  case h_9 fd e hpc =>
    obtain ⟨th, hth, rfl⟩ := event_eq_some h
    exact .timedOut fd e th hpc hth
  all_goals cases h

/-- What one step can do. -/
inductive Stepped (s : IoFibers) : IoAct → IoFibers → Prop where
  | io (i : FiberId) (c : IoCall) : s.fiber i = .outside →
      Stepped s (.io i c) (s.setFiber i (.entry c))
  | close (i : FiberId) (fd : Nat) : s.fiber i = .outside →
      Stepped s (.close i fd) (s.setFiber i (.closing fd .get))
  | hooked (i : FiberId) (c : Call) (p : Process Files) : s.fiber i = .outside →
      c.single = true → s.proc.exec c = .ok p → Stepped s (.hooked i c) (s.called p)
  | run (i : FiberId) {s' : IoFibers} : RunStep s i s' → Stepped s (.run i) s'
  | direct (i : FiberId) (c : IoCall) (r : Returned Nat) : s.fiber i = .direct c → s.Answer c r →
      Stepped s (.result i r) ((s.answered c r).setFiber i (.returned c r))
  | answer (i : FiberId) (c : IoCall) (w : IoWait) (r : Returned Nat) : s.fiber i = .attempt c w →
      s.Answer c r → Stepped s (.result i r) ((s.answered c r).finish i c w r)
  | retry (i : FiberId) (c : IoCall) (w : IoWait) : s.fiber i = .attempt c w →
      Stepped s (.result i (.error .EINTR)) s
  | again (i : FiberId) (c : IoCall) (w : IoWait) : s.fiber i = .attempt c w →
      Stepped s (.result i (.error .EAGAIN)) (s.setFiber i (.arm c w))
  | resume (i : FiberId) (n : Nat) (c : IoCall) (w : IoWait) : s.fiber i = .suspended c w →
      Stepped s (.resume i n) { s.setFiber i (.resumed c w) with _queue := s._queue.eraseIdx n }
  | take (n : Nat) : Stepped s (.take n) { s with _queue := s._queue.eraseIdx n }
  | add_task (task : ScheduleTask) :
      Stepped s (.add_task task) { s with _queue := s._queue ++ [task] }
  | event (a : Act) (th : Threads) : s.toThreads.exec a = .ok th →
      (∀ i, a = .run i → s.throws i = false) → Stepped s (.event a) (s.stepped th)
  | threw (i : FiberId) (c : IoCall) (w : IoWait) (th : Threads) : s.fiber i = .yield c w →
      s.toThreads.exec (.run i) = .ok th →
      Stepped s (.event (.run i)) ((s.stepped th).setFiber i (.threw c w))
  | timeout (i : FiberId) (k : Nat) (t : CondTimer) : s.fiber i = .outside →
      s.condTimers[k]? = some t → s.infos t.tinfo = some {} →
      Stepped s (.timeout i k) { s.setFiber i (.timedOut t.fd t.event) with
        infos := Function.update s.infos t.tinfo (some ⟨some .ETIMEDOUT⟩) }
  | skipped (i : FiberId) (k : Nat) : Stepped s (.timeout i k) s

theorem ready_iff : s.ready i = true ↔ s.fiber i = .outside ∧ s.pc i = .outside :=
  decide_eq_true_iff

theorem result_stepped {r : Returned Nat} (hanswer : ∀ c, (s.fiber i).calls = some c → s.Answer c r)
    (h : s.result i r = some s') : Stepped s (.result i r) s' := by
  unfold result at h
  split at h
  case h_1 c hpc =>
    cases h
    exact .direct i c r hpc (hanswer c (by rw [hpc]; rfl))
  case h_2 c w hpc =>
    have hc := hanswer c (by rw [hpc]; rfl)
    rcases r with (_ | _ | _ | _ | code) | n <;> cases h
    case error.EINTR => exact .retry i c w hpc
    case error.EAGAIN => exact .again i c w hpc
    all_goals exact .answer i c w _ hpc hc
  case h_3 => cases h

theorem stepped_of_step (h : system.step s a s') : Stepped s a s' := by
  obtain ⟨hallowed, h⟩ := h
  cases a with
  | io i c =>
    obtain ⟨hready, heq⟩ := Option.ite_none_right_eq_some.mp h
    cases heq
    exact .io i c (ready_iff.mp hready).1
  | close i fd =>
    obtain ⟨hready, heq⟩ := Option.ite_none_right_eq_some.mp h
    cases heq
    exact .close i fd (ready_iff.mp hready).1
  | hooked i c =>
    obtain ⟨⟨hready, hsingle⟩, h⟩ := Option.ite_none_right_eq_some.mp h
    obtain ⟨p, hp, rfl⟩ := Option.map_eq_some_iff.mp h
    exact .hooked i c p (ready_iff.mp hready).1 hsingle (toOption_eq_some.mp hp)
  | run i =>
    obtain ⟨_, h⟩ := Option.ite_none_right_eq_some.mp h
    exact .run i (runStep_of_eq h)
  | result i r => exact result_stepped hallowed h
  | resume i n =>
    change s.resume i n = some s' at h
    unfold resume at h
    split at h
    case h_1 c w task hpc _ =>
      obtain ⟨_, heq⟩ := Option.ite_none_right_eq_some.mp h
      cases heq
      exact .resume i n c w hpc
    case h_2 => cases h
  | take n =>
    simp only [exec] at h
    split at h
    case h_1 =>
      obtain ⟨_, heq⟩ := Option.ite_none_right_eq_some.mp h
      cases heq
      exact .take n
    case h_2 => cases h
  | add_task task =>
    cases h
    exact .add_task task
  | event a =>
    cases a with
    | run i =>
      simp only [exec] at h
      split at h
      case isTrue hthrows =>
        obtain ⟨s₁, hs₁, rfl⟩ := Option.map_eq_some_iff.mp h
        obtain ⟨th, hth, rfl⟩ := event_eq_some hs₁
        unfold throws at hthrows
        split at hthrows
        case h_1 c w _ _ _ hfiber _ =>
          have hunwound : (s.stepped th).unwind i = (s.stepped th).setFiber i (.threw c w) := by
            simp only [unwind, stepped, hfiber]
          rw [hunwound]
          exact .threw i c w th hfiber hth
        case h_2 => cases hthrows
      case isFalse hthrows =>
        obtain ⟨th, hth, rfl⟩ := event_eq_some h
        refine .event _ th hth fun j hj => ?_
        cases hj
        exact Bool.eq_false_iff.mpr hthrows
    | _ =>
      obtain ⟨th, hth, rfl⟩ := event_eq_some (Option.ite_none_right_eq_some.mp h).2
      exact .event _ th hth nofun
  | timeout i k =>
    obtain ⟨hready, h⟩ := Option.ite_none_right_eq_some.mp h
    obtain ⟨t, ht, rfl⟩ := Option.map_eq_some_iff.mp h
    unfold timeout
    split
    case h_1 hinfo => exact .timeout i k t (ready_iff.mp hready).1 ht hinfo
    case h_2 => exact .skipped i k

end IoFibers

end FiberAsync
