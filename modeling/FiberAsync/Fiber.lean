import FiberAsync.FdContext
import FiberAsync.Library.Coroutines
import FiberAsync.Library.Results

/-!
# Fibers of one thread

The functions of `fiber.cc` on the thread-locals of one thread. A `ucontext_t`
holds a place in the code that runs on some fiber's stack: `swapcontext` writes
the place behind itself into one of them and goes on at the place it finds in
the other, whatever is there. The places are numbered by the calls of
`swapcontext` on the thread.
-/

namespace FiberAsync

set_option autoImplicit false

open Runs Coroutines Results

inductive FiberState where
  | READY
  | RUNNING
  | TERM
  deriving DecidableEq, Repr

/-- What `swapcontext` saves: whose stack, and where in the code on it. -/
structure Context where
  stack : FiberId
  place : Place
  deriving DecidableEq, Repr

structure Fiber where
  m_ctx : Context
  m_state : FiberState
  /-- `m_stack` is not null -/
  m_stack : Bool
  m_cb : Option Callback
  m_runInScheduler : Bool
  deriving DecidableEq, Repr

inductive FiberFault where
  /-- `qc_assert(m_state == READY)` in `resume` -/
  | notReady
  /-- `qc_assert(m_state == RUNNING || m_state == TERM)` in `yield` -/
  | notRunning
  /-- `qc_assert(m_stack)` in `reset` -/
  | noStack
  /-- `qc_assert(m_state == TERM)` in `reset` -/
  | notTerm
  /-- the call of an empty `m_cb` in `MainFunc` -/
  | emptyCallback
  deriving DecidableEq, Repr

structure FiberThread where
  fiber : FiberId → Fiber
  created : Nat
  t_fiber : FiberId
  t_thread_fiber : FiberId
  t_scheduler_fiber : FiberId
  /-- where the processor is -/
  cpu : Context
  /-- the variable `cur` of `MainFunc`, on each stack -/
  cur : FiberId → FiberId
  /-- the number of `swapcontext` calls so far -/
  switches : Nat
  /-- the callbacks given to each fiber, those started and those that returned;
  kept for the statements, no step reads them -/
  made : FiberId → List Callback
  begun : FiberId → List Callback
  ended : FiberId → List Callback

namespace FiberThread

/-- A thread after its first `Fiber::GetThis()`. The flag `m_runInScheduler` of
its main fiber is never written, and never read. -/
def attached : FiberThread where
  fiber := fun f =>
    { m_ctx := ⟨f, .start⟩, m_state := .RUNNING, m_stack := false, m_cb := none
      m_runInScheduler := false }
  created := 1
  t_fiber := 0
  t_thread_fiber := 0
  t_scheduler_fiber := 0
  cpu := ⟨0, .start⟩
  cur := fun f => f
  switches := 0
  made := fun _ => []
  begun := fun _ => []
  ended := fun _ => []

section Functions

variable (s : FiberThread)

def setFiber (f : FiberId) (x : Fiber) : FiberThread :=
  { s with fiber := Function.update s.fiber f x }

def SetThis (f : FiberId) : FiberThread := { s with t_fiber := f }

/-- `Scheduler::GetMainFiber()` -/
def GetMainFiber : FiberId := s.t_scheduler_fiber

/-- `swapcontext(&out->m_ctx, &in->m_ctx)` -/
def swapcontext (out in_ : FiberId) : FiberThread :=
  let s := s.setFiber out { s.fiber out with m_ctx := ⟨s.cpu.stack, .after s.switches⟩ }
  { s with cpu := (s.fiber in_).m_ctx, switches := s.switches + 1 }

/-- `Fiber(cb, stacksize, run_in_scheduler)`; `makecontext` makes the first place. -/
def newFiber (f : FiberId) (cb : Callback) (run_in_scheduler : Bool) : FiberThread :=
  { s.setFiber f
      { m_ctx := ⟨f, .entry⟩, m_state := .READY, m_stack := true, m_cb := some cb
        m_runInScheduler := run_in_scheduler } with
    created := s.created + 1
    made := Function.update s.made f (s.made f ++ [cb]) }

def reset (f : FiberId) (cb : Callback) : Except FiberFault FiberThread :=
  if ¬ (s.fiber f).m_stack then .error .noStack
  else if (s.fiber f).m_state ≠ .TERM then .error .notTerm
  else
    .ok { s.setFiber f
            { s.fiber f with m_cb := some cb, m_ctx := ⟨f, .entry⟩, m_state := .READY } with
          made := Function.update s.made f (s.made f ++ [cb]) }

def resume (f : FiberId) : Except FiberFault FiberThread :=
  if (s.fiber f).m_state ≠ .READY then .error .notReady
  else
    let s := s.SetThis f
    let s := s.setFiber f { s.fiber f with m_state := .RUNNING }
    if (s.fiber f).m_runInScheduler then .ok (s.swapcontext s.GetMainFiber f)
    else .ok (s.swapcontext s.t_thread_fiber f)

def yield (f : FiberId) : Except FiberFault FiberThread :=
  if ¬ ((s.fiber f).m_state = .RUNNING ∨ (s.fiber f).m_state = .TERM) then .error .notRunning
  else
    let s :=
      if (s.fiber f).m_state ≠ .TERM then s.setFiber f { s.fiber f with m_state := .READY } else s
    let s := s.SetThis s.t_thread_fiber
    if (s.fiber f).m_runInScheduler then .ok (s.swapcontext f s.GetMainFiber)
    else .ok (s.swapcontext f s.t_thread_fiber)

/-- `MainFunc` up to the call of `cur->m_cb`. -/
def enter : Except FiberFault FiberThread :=
  match (s.fiber s.t_fiber).m_cb with
  | none => .error .emptyCallback
  | some cb =>
    .ok { s with
      cur := Function.update s.cur s.cpu.stack s.t_fiber
      cpu := ⟨s.cpu.stack, .start⟩
      begun := Function.update s.begun s.t_fiber (s.begun s.t_fiber ++ [cb]) }

/-- `MainFunc` from the return of `cur->m_cb` on. -/
def finish : Except FiberFault FiberThread :=
  let f := s.cur s.cpu.stack
  let s := { s with ended := Function.update s.ended f (s.ended f ++ (s.fiber f).m_cb.toList) }
  let s := s.setFiber f { s.fiber f with m_cb := none, m_state := .TERM }
  s.yield f

end Functions

/-- A worker thread when its `run` has set `t_scheduler_fiber`. -/
def worker : FiberThread := { attached with t_scheduler_fiber := attached.t_fiber }

/-- The caller's thread after the constructor of its scheduler: `_rootFiber` is
to call `run`. -/
def caller (run : Callback) : FiberThread :=
  { attached.newFiber 1 run false with t_scheduler_fiber := 1 }

inductive Act where
  /-- `new Fiber(cb, 0, run_in_scheduler)` -/
  | construct (f : FiberId) (cb : Callback) (run_in_scheduler : Bool)
  | reset (f : FiberId) (cb : Callback)
  | resume (f : FiberId)
  /-- a fiber that is resumed for the first time starts its callback -/
  | enter
  /-- `Fiber::GetThis()->yield()` -/
  | yield
  /-- the callback returns -/
  | finish
  deriving DecidableEq, Repr

variable (s : FiberThread)

def exec : Act → Except FiberFault FiberThread
  | .construct f cb run_in_scheduler => .ok (s.newFiber f cb run_in_scheduler)
  | .reset f cb => s.reset f cb
  | .resume f => s.resume f
  | .enter => s.enter
  | .yield => s.yield s.t_fiber
  | .finish => s.finish

/-- A fiber that is neither the thread's main fiber nor its scheduling fiber. -/
def IsTask (f : FiberId) : Prop :=
  f < s.created ∧ f ≠ s.t_thread_fiber ∧ f ≠ s.t_scheduler_fiber

/-- The calls that the threads of a scheduler make: the scheduling fiber resumes
tasks, and the main fiber of the caller's thread resumes the scheduling fiber.
Tasks run in the scheduler; on a worker, whose scheduling fiber is its main
fiber, the flag does not matter. Only finished fibers are reset. -/
def Allowed : Act → Prop
  | .construct f _ run_in_scheduler => s.cpu.place ≠ .entry ∧ f = s.created ∧
    (run_in_scheduler = true ∨ s.t_scheduler_fiber = s.t_thread_fiber)
  | .reset f _ => s.cpu.place ≠ .entry ∧ f < s.created ∧ s.made f ≠ [] ∧ s.ended f = s.made f
  | .resume f => s.cpu.place ≠ .entry ∧ (s.fiber f).m_state = .READY ∧
    (s.cpu.stack = s.t_scheduler_fiber ∧ s.IsTask f ∨
      s.cpu.stack = s.t_thread_fiber ∧ f = s.t_scheduler_fiber)
  | .enter => s.cpu.place = .entry
  | .yield => s.cpu.place ≠ .entry ∧ s.IsTask s.cpu.stack
  | .finish => s.cpu.place ≠ .entry ∧ s.cpu.stack ≠ s.t_thread_fiber

instance (f : FiberId) : Decidable (s.IsTask f) := inferInstanceAs (Decidable (_ ∧ _))

instance (a : Act) : Decidable (s.Allowed a) := by
  cases a <;> unfold Allowed <;> infer_instance

def system (s₀ : FiberThread) : System FiberThread Act where
  init s := s = s₀
  step s a s' := s.Allowed a ∧ s.exec a = .ok s'

def next (a : Act) : Option FiberThread := if s.Allowed a then (s.exec a).toOption else none

theorem next_sound {s₀ s s' : FiberThread} {a : Act} (h : s.next a = some s') :
    (system s₀).step s a s' := by
  obtain ⟨ha, h⟩ := Option.ite_none_right_eq_some.mp h
  exact ⟨ha, toOption_eq_some.mp h⟩

end FiberThread

end FiberAsync
