import FiberAsync.Fiber
import FiberAsync.Library.Ownership

/-!
# Who owns the fibers

Fibers are held by `Fiber::ptr`s: in the queue, in the callbacks of timers, in
registered events, in the variables of `run`, in variables on the stacks of other
fibers, and in the variable `cur` of `MainFunc` on a fiber's own stack. Copies of
a pointer count up in the fiber, and the pointer that counts down to zero calls
`~Fiber`. A `std::function` owns what it has captured.
-/

namespace FiberAsync

set_option autoImplicit false

open Runs Ownership

/-- A value that owns fibers. -/
inductive Owner where
  | fiber (f : FiberId)
  | cb (captured : List FiberId)
  deriving DecidableEq, Repr

def Owner.refs : Owner → List FiberId
  | fiber f => [f]
  | cb captured => captured

structure OwnedFiber where
  m_state : FiberState
  /-- `m_stack` is not null -/
  m_stack : Bool
  /-- what the callback has captured -/
  m_cb : Option (List FiberId)
  /-- `m_ctx` is not what `makecontext` made any more -/
  entered : Bool
  /-- `m_ctx` holds all of the fiber's last suspension -/
  saved : Bool
  /-- the variable `cur` of `MainFunc` -/
  cur : Option FiberId
  /-- the other owning variables and temporaries on its stack -/
  vars : List Owner
  destroyed : Bool
  deriving DecidableEq, Repr

def OwnedFiber.refs (x : OwnedFiber) : List FiberId := x.cur.toList ++ x.vars.flatMap Owner.refs

inductive RunPc where
  /-- not in `run` yet -/
  | outside
  /-- about to scan the queue -/
  | scan
  /-- the scan has filled `task` -/
  | call
  /-- in `MainFunc`, before `cur` is set -/
  | enter (f : FiberId)
  /-- executes the fiber -/
  | on (f : FiberId)
  /-- in `yield()`, `m_state` set, before `swapcontext` -/
  | leaving (f : FiberId)
  /-- back in `run`, behind `resume()` -/
  | back
  | exited
  deriving DecidableEq, Repr

/-- The fiber on whose stack the thread is, if that is not the one of `run`. -/
def RunPc.fiber : RunPc → Option FiberId
  | enter f | on f | leaving f => some f
  | _ => none

structure RunThread where
  pc : RunPc
  t_thread_fiber : Option FiberId
  idleFiber : Option FiberId
  task : Option Owner
  taskFiber : Option FiberId
  deriving DecidableEq, Repr

/-- What the thread may resume. -/
def RunThread.resumable (x : RunThread) : List FiberId :=
  x.idleFiber.toList ++ (x.task.map Owner.refs).getD [] ++ x.taskFiber.toList

def RunThread.refs (x : RunThread) : List FiberId := x.t_thread_fiber.toList ++ x.resumable

inductive OwnerFault where
  /-- `qc_assert(it->fiber->getState() == Fiber::READY)` in `run`, `qc_assert(m_state == READY)`
  in `resume` -/
  | notReady
  /-- `qc_assert(m_state == RUNNING || m_state == TERM)` in `yield`, and in `addEvent`
  `qc_assert(event_ctx.fiber->getState() == Fiber::RUNNING)` -/
  | notRunning
  /-- the assertions in `reset` -/
  | reset
  /-- `qc_assert(m_state == TERM)` in `~Fiber` -/
  | notTerm (f : FiberId)
  /-- `qc_assert(!m_cb)` and `qc_assert(m_state == RUNNING)` in `~Fiber` -/
  | mainFiber
  /-- `~Fiber` has passed its assertions and still has a callback to destroy -/
  | callbackLeft
  /-- a fiber is used that has been destroyed -/
  | dangling
  /-- `resume` or `reset` uses a context that is not saved yet, which the code does not check -/
  | unsaved
  deriving DecidableEq, Repr

/-- A check on the use of a fiber has failed, or its context is not saved. -/
def OwnerFault.isUse : OwnerFault → Bool
  | notReady | reset | unsaved => true
  | notRunning | notTerm _ | mainFiber | callbackLeft | dangling => false

/-- Where references are held. -/
inductive Place (τ : Type) where
  | queue
  | timers
  | events
  /-- the variables of code that no fiber of the scheduler executes -/
  | outside
  | thread (l : τ)
  | stack (f : FiberId)
  | callback (f : FiberId)
  deriving DecidableEq, Repr

structure FiberHeap (τ : Type) where
  fiber : FiberId → OwnedFiber
  use_count : FiberId → Nat
  created : Nat
  s_fiber_count : Nat
  _queue : List Owner
  /-- the callbacks of the timers in `m_timers` -/
  timers : List Owner
  /-- the fibers and callbacks of the registered events -/
  events : List Owner
  outside : List Owner
  worker : τ → RunThread

namespace FiberHeap

/-- What code does with the values that it holds. -/
inductive Op where
  /-- a new variable gets copies of pointers -/
  | copy (v : Owner)
  /-- `new Fiber(cb)` -/
  | newFiber (captured : List FiberId)
  | reset (f : FiberId) (captured : List FiberId)
  /-- a variable goes out of scope -/
  | forget (n : Nat)
  | add_task (n : Nat)
  | add_timer (n : Nat)
  /-- `Timer::cancel` -/
  | cancel (n : Nat)
  /-- `listExpiredCb` copies a callback, which a recurring timer keeps -/
  | expire (n : Nat) (recurring : Bool)
  /-- `addEvent` with a callback, or with the current fiber -/
  | addEvent (cb : Option Nat)
  | delEvent (n : Nat)
  | triggerEvent (n : Nat)
  deriving DecidableEq, Repr

inductive Act (τ : Type) where
  /-- the thread calls `run` -/
  | begin_ (l : τ)
  /-- it finds that task of the queue, or none -/
  | scan (l : τ) (n : Option Nat)
  | call (l : τ)
  | enter (l : τ)
  /-- the fiber that the thread executes, or code outside -/
  | operate (who : Option τ) (op : Op)
  | yield (l : τ)
  /-- the fiber's callback returns -/
  | finish (l : τ)
  /-- `swapcontext` in `yield` -/
  | swap (l : τ)
  | back (l : τ)
  deriving DecidableEq, Repr

variable {τ : Type}

def initial : FiberHeap τ where
  fiber := fun _ => ⟨.READY, true, none, false, true, none, [], false⟩
  use_count := fun _ => 0
  created := 0
  s_fiber_count := 0
  _queue := []
  timers := []
  events := []
  outside := []
  worker := fun _ => ⟨.outside, none, none, none, none⟩

section Functions

variable (s : FiberHeap τ)

def refs : Place τ → List FiberId
  | .queue => s._queue.flatMap Owner.refs
  | .timers => s.timers.flatMap Owner.refs
  | .events => s.events.flatMap Owner.refs
  | .outside => s.outside.flatMap Owner.refs
  | .thread l => (s.worker l).refs
  | .stack f => (s.fiber f).refs
  | .callback f => (s.fiber f).m_cb.getD []

def setFiber (f : FiberId) (x : OwnedFiber) : FiberHeap τ :=
  { s with fiber := Function.update s.fiber f x }

/-- Pointers are copied. -/
def copies (l : List FiberId) : Except OwnerFault (FiberHeap τ) :=
  if ∃ f ∈ l, (s.fiber f).destroyed = true then .error .dangling
  else .ok { s with use_count := fun f => s.use_count f + l.count f }

/-- After the body of `~Fiber` and the destructors of the members. -/
def destroyed (f : FiberId) : FiberHeap τ :=
  { s.setFiber f { s.fiber f with destroyed := true } with s_fiber_count := s.s_fiber_count - 1 }

/-- `~Fiber` -/
def destroy (f : FiberId) : Except OwnerFault (FiberHeap τ) :=
  if (s.fiber f).m_stack then
    if (s.fiber f).m_state ≠ .TERM then .error (.notTerm f)
    else if (s.fiber f).m_cb.isSome then .error .callbackLeft
    else .ok (s.destroyed f)
  else if (s.fiber f).m_cb.isSome ∨ (s.fiber f).m_state ≠ .RUNNING then .error .mainFiber
  else .ok (s.destroyed f)

/-- The destructor of a `Fiber::ptr` counts down. -/
def decrement (f : FiberId) : FiberHeap τ :=
  { s with use_count := Function.update s.use_count f (s.use_count f - 1) }

def drop (f : FiberId) : Except OwnerFault (FiberHeap τ) :=
  if (s.fiber f).destroyed then .error .dangling
  else if s.use_count f - 1 = 0 then (s.decrement f).destroy f
  else .ok (s.decrement f)

def drops (s : FiberHeap τ) : List FiberId → Except OwnerFault (FiberHeap τ)
  | [] => .ok s
  | f :: l => s.drop f >>= fun s => s.drops l

/-- A new fiber, owned by the variable that the caller is about to set. -/
def newFiber (x : OwnedFiber) : FiberHeap τ :=
  { s.setFiber s.created x with
    use_count := Function.update s.use_count s.created 1
    created := s.created + 1
    s_fiber_count := s.s_fiber_count + 1 }

/-- `Fiber()` -/
def mainFiber : OwnedFiber := ⟨.RUNNING, false, none, true, true, none, [], false⟩

/-- `Fiber(cb)` -/
def taskFiber (captured : List FiberId) : OwnedFiber :=
  ⟨.READY, true, some captured, false, true, none, [], false⟩

section Code

/-- The variables of a fiber's code, or of the code outside. -/
def vars : Option FiberId → List Owner
  | some f => (s.fiber f).vars
  | none => s.outside

def setVars (vars : List Owner) : Option FiberId → FiberHeap τ
  | some f => s.setFiber f { s.fiber f with vars }
  | none => { s with outside := vars }

/-- The pointers that code can copy: its variables, and what its callback has captured. -/
def held : Option FiberId → List FiberId
  | some f => (s.refs (.stack f)) ++ s.refs (.callback f)
  | none => s.refs .outside

/-- The state before the references are dropped that the operation gives up. -/
def operate (o : Option FiberId) :
    Op → Option (Except OwnerFault (FiberHeap τ × List FiberId))
  | .copy v =>
    if v.refs ⊆ s.held o then
      some ((s.copies v.refs).map fun s => (s.setVars (s.vars o ++ [v]) o, []))
    else none
  | .newFiber captured =>
    if captured ⊆ s.held o then
      some ((s.copies captured).map fun s =>
        ((s.newFiber (taskFiber captured)).setVars (s.vars o ++ [.fiber s.created]) o, []))
    else none
  | .reset f captured =>
    if f ∈ s.held o ∧ captured ⊆ s.held o then
      if ¬ ((s.fiber f).m_stack ∧ (s.fiber f).m_state = .TERM) then some (.error .reset)
      else if ¬ (s.fiber f).saved then some (.error .unsaved)
      else
        some ((s.copies captured).map fun s => (s.setFiber f { s.fiber f with
          m_cb := some captured, entered := false, m_state := .READY }, (s.fiber f).m_cb.getD []))
    else none
  | .forget n => ((s.vars o)[n]?).map fun v => .ok (s.setVars ((s.vars o).eraseIdx n) o, v.refs)
  | .add_task n => ((s.vars o)[n]?).map fun v =>
      (s.copies v.refs).map fun s => ({ s with _queue := s._queue ++ [v] }, [])
  | .add_timer n => ((s.vars o)[n]?).map fun v =>
      (s.copies v.refs).map fun s => ({ s with timers := s.timers ++ [v] }, [])
  | .cancel n => (s.timers[n]?).map fun v => .ok ({ s with timers := s.timers.eraseIdx n }, v.refs)
  | .expire n recurring => (s.timers[n]?).map fun v =>
      if recurring then (s.copies v.refs).map fun s => (s.setVars (s.vars o ++ [v]) o, [])
      else .ok (setVars { s with timers := s.timers.eraseIdx n } (s.vars o ++ [v]) o, [])
  | .addEvent (some n) => ((s.vars o)[n]?).map fun v =>
      (s.copies v.refs).map fun s => ({ s with events := s.events ++ [v] }, [])
  | .addEvent none => o.map fun f =>
      if (s.fiber f).m_state = .RUNNING then
        (s.copies [f]).map fun s => ({ s with events := s.events ++ [.fiber f] }, [])
      else .error .notRunning
  | .delEvent n => (s.events[n]?).map fun v =>
      .ok ({ s with events := s.events.eraseIdx n }, v.refs)
  | .triggerEvent n => (s.events[n]?).map fun v =>
      .ok ({ s with events := s.events.eraseIdx n, _queue := s._queue ++ [v] }, [])

end Code

end Functions

section Run

variable [DecidableEq τ] (s : FiberHeap τ)

def setThread (l : τ) (x : RunThread) : FiberHeap τ :=
  { s with worker := Function.update s.worker l x }

def setPc (l : τ) (pc : RunPc) : FiberHeap τ := s.setThread l { s.worker l with pc }

/-- `run` up to its loop; `Fiber::GetThis()` makes the thread's main fiber. -/
def begin_ (l : τ) : FiberHeap τ :=
  ((s.newFiber mainFiber).newFiber (taskFiber [])).setThread l
    ⟨.scan, some s.created, some (s.created + 1), none, none⟩

/-- `task = *it; _queue.erase(it++)` -/
def take (l : τ) (n : Nat) (v : Owner) : Except OwnerFault (FiberHeap τ) :=
  let s' := setThread { s with _queue := s._queue.eraseIdx n } l
    { s.worker l with pc := .call, task := some v }
  match v with
  | .cb _ => .ok s'
  | .fiber f =>
    if (s.fiber f).destroyed then .error .dangling
    else if (s.fiber f).m_state ≠ .READY then .error .notReady
    else .ok s'

/-- `resume()` up to the code that the thread goes on with. -/
def resume (l : τ) (f : FiberId) : Except OwnerFault (FiberHeap τ) :=
  let x := s.fiber f
  if x.destroyed then .error .dangling
  else if x.m_state ≠ .READY then .error .notReady
  else if ¬ x.saved then .error .unsaved
  else .ok ((s.setFiber f { x with m_state := .RUNNING, saved := false }).setPc l
    (if x.entered then .on f else .enter f))

/-- `taskFiber.reset(new Fiber(task.cb)); task.reset()` -/
def wrap (l : τ) (captured : List FiberId) : FiberHeap τ :=
  (s.newFiber (taskFiber captured)).setThread l
    { s.worker l with task := none, taskFiber := some s.created }

/-- `ptr cur = GetThis()` in `MainFunc` -/
def enter (l : τ) (f : FiberId) : Except OwnerFault (FiberHeap τ) :=
  (s.copies [f]).map fun s =>
    (s.setFiber f { s.fiber f with entered := true, cur := some f }).setPc l (.on f)

/-- `break`, and the end of the thread. -/
def leave (l : τ) : FiberHeap τ × List FiberId :=
  (s.setThread l ⟨.exited, none, none, none, none⟩,
    (s.worker l).resumable ++ (s.worker l).t_thread_fiber.toList)

def yield (l : τ) (f : FiberId) : Except OwnerFault (FiberHeap τ) :=
  let x := s.fiber f
  if x.m_state = .RUNNING ∨ x.m_state = .TERM then
    .ok ((s.setFiber f { x with m_state := if x.m_state ≠ .TERM then .READY else .TERM }).setPc l
      (.leaving f))
  else .error .notRunning

/-- `MainFunc` behind the call of `cur->m_cb`, and the start of `yield()` -/
def finish (l : τ) (f : FiberId) : FiberHeap τ × List FiberId :=
  ((s.setFiber f { s.fiber f with m_cb := none, m_state := .TERM, cur := none }).setPc l
    (.leaving f), (s.fiber f).m_cb.getD [] ++ (s.fiber f).cur.toList)

/-- `task.reset()` or `taskFiber.reset()` -/
def back (l : τ) : FiberHeap τ × List FiberId :=
  (s.setThread l { s.worker l with pc := .scan, task := none, taskFiber := none },
    ((s.worker l).task.map Owner.refs).getD [] ++ (s.worker l).taskFiber.toList)

/-- The fiber whose code acts; `none` inside is the code outside. -/
def actor : Option τ → Option (Option FiberId)
  | none => some none
  | some l =>
    match (s.worker l).pc with
    | .on f => some (some f)
    | _ => none

def scan (l : τ) : Option Nat → Option (Except OwnerFault (FiberHeap τ × List FiberId))
  | some n => (s._queue[n]?).map fun v => (s.take l n v).map fun s => (s, [])
  | none => (s.worker l).idleFiber.map fun f =>
      if (s.fiber f).m_state = .TERM then .ok (s.leave l)
      else (s.resume l f).map fun s => (s, [])

def call (l : τ) : Option (Except OwnerFault (FiberHeap τ × List FiberId)) :=
  (s.worker l).task.map fun
    | .fiber f => (s.resume l f).map fun s => (s, [])
    | .cb captured => ((s.wrap l captured).resume l s.created).map fun s => (s, [])

/-- The state before the references are dropped that the step gives up. -/
def perform : Act τ → Option (Except OwnerFault (FiberHeap τ × List FiberId))
  | .begin_ l => if (s.worker l).pc = .outside then some (.ok (s.begin_ l, [])) else none
  | .scan l n => if (s.worker l).pc = .scan then s.scan l n else none
  | .call l => if (s.worker l).pc = .call then s.call l else none
  | .enter l =>
    match (s.worker l).pc with
    | .enter f => some ((s.enter l f).map fun s => (s, []))
    | _ => none
  | .operate who op => (s.actor who).bind fun o => s.operate o op
  | .yield l =>
    match (s.worker l).pc with
    | .on f => some ((s.yield l f).map fun s => (s, []))
    | _ => none
  | .finish l =>
    match (s.worker l).pc with
    -- the variables of the callback are gone
    | .on f => if (s.fiber f).vars = [] then some (.ok (s.finish l f)) else none
    | _ => none
  | .swap l =>
    match (s.worker l).pc with
    | .leaving f => some (.ok ((s.setFiber f { s.fiber f with saved := true }).setPc l .back, []))
    | _ => none
  | .back l => if (s.worker l).pc = .back then some (.ok (s.back l)) else none

def exec (a : Act τ) : Option (Except OwnerFault (FiberHeap τ)) :=
  (s.perform a).map fun r => r >>= fun x => x.1.drops x.2

def system : System (FiberHeap τ) (Act τ) where
  init s := s = initial
  step s a s' := s.exec a = some (.ok s')

def next (a : Act τ) : Option (FiberHeap τ) := (s.exec a).bind Except.toOption

theorem next_sound {s s' : FiberHeap τ} {a : Act τ} (h : s.next a = some s') :
    system.step s a s' := by
  obtain ⟨r, hr, hok⟩ := Option.bind_eq_some_iff.mp h
  cases r with
  | error f => cases hok
  | ok u =>
    cases hok
    exact hr

end Run

end FiberHeap

end FiberAsync
