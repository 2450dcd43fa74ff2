import FiberAsync.Event

/-!
# FdContext and the tasks it makes

Pointers to schedulers, fibers and contexts are natural numbers, a callable is
known by its identity, and a null pointer or an empty `std::function` is `none`.
A failed `qc_assert`, a null dereference and an index past the end of a vector
end the process: they are the values of `Fault`.
-/

namespace FiberAsync

set_option autoImplicit false

abbrev SchedulerId := Nat
abbrev FiberId := Nat
abbrev Callback := Nat
abbrev Tid := Nat
abbrev ContextPtr := Nat

inductive Fault where
  /-- `qc_assert(m_events & event)` in `triggerEvent` -/
  | eventNotSet
  /-- `ctx.scheduler->add_task(..)` in `triggerEvent` with a null scheduler -/
  | nullScheduler
  /-- `qc_assert(!event_ctx.scheduler && !event_ctx.fiber && !event_ctx.cb)` in `addEvent` -/
  | contextInUse
  /-- `qc_assert(event_ctx.fiber->getState() == Fiber::RUNNING)` in `addEvent` -/
  | fiberNotRunning
  /-- `qc_assert(!rt)` after an `epoll_ctl` -/
  | epollCtl
  /-- an index outside `m_fdContexts` or `m_datas` -/
  | indexOutOfRange
  /-- a null entry of `m_fdContexts` is dereferenced -/
  | nullContext
  deriving DecidableEq, Repr

structure ScheduleTask where
  fiber : Option FiberId
  cb : Option Callback
  thread : Int
  deriving DecidableEq, Repr

namespace ScheduleTask

/-- `ScheduleTask(Fiber::ptr f, int thr)`. -/
def ofFiber (f : Option FiberId) (thr : Int) : ScheduleTask := ⟨f, none, thr⟩

/-- `ScheduleTask(std::function<void()> f, int thr)`. -/
def ofCb (f : Callback) (thr : Int) : ScheduleTask := ⟨none, some f, thr⟩

end ScheduleTask

structure EventContext where
  scheduler : Option SchedulerId := none
  fiber : Option FiberId := none
  cb : Option Callback := none
  deriving DecidableEq, Repr

/-- A call `scheduler->add_task(task)`. -/
abbrev Waiter := SchedulerId × ScheduleTask

namespace EventContext

/-- The waiter `triggerEvent` hands over: the callback if there is one, else the fiber. -/
def waiter (ctx : EventContext) : Option Waiter :=
  ctx.scheduler.map fun sched =>
    match ctx.cb with
    | some cb => (sched, .ofCb cb (-1))
    | none => (sched, .ofFiber ctx.fiber (-1))

/-- A non-null scheduler and exactly one of `cb` and `fiber`. -/
def Armed (ctx : EventContext) : Prop :=
  ctx.scheduler.isSome ∧ (ctx.cb.isSome ↔ ctx.fiber = none)

theorem waiter_isSome (ctx : EventContext) : ctx.waiter.isSome = ctx.scheduler.isSome := by
  simp [waiter]

end EventContext

structure FdContext where
  m_fd : Nat
  m_events : EventMask := .NONE
  m_read : EventContext := {}
  m_write : EventContext := {}
  deriving DecidableEq

namespace FdContext

def getEventContext (ctx : FdContext) : Event → EventContext
  | .READ => ctx.m_read
  | .WRITE => ctx.m_write

/-- Assignment through the reference `getEventContext` returns. -/
def setEventContext (ctx : FdContext) (ec : EventContext) : Event → FdContext
  | .READ => { ctx with m_read := ec }
  | .WRITE => { ctx with m_write := ec }

/-- `resetEventContext(getEventContext(event))`. -/
def resetEventContext (ctx : FdContext) (event : Event) : FdContext :=
  ctx.setEventContext {} event

def triggerEvent (ctx : FdContext) (event : Event) : Except Fault (FdContext × Waiter) :=
  if ctx.m_events.has event then
    match (ctx.getEventContext event).waiter with
    | some w => .ok (ctx.resetEventContext event, w)
    | none => .error .nullScheduler
  else .error .eventNotSet

section Fields

variable (ctx : FdContext) (ec : EventContext) (e e' : Event)

@[simp] theorem setEventContext_fd : (ctx.setEventContext ec e).m_fd = ctx.m_fd := by
  cases e <;> rfl

@[simp] theorem setEventContext_events : (ctx.setEventContext ec e).m_events = ctx.m_events := by
  cases e <;> rfl

theorem getEventContext_set :
    (ctx.setEventContext ec e).getEventContext e' =
      if e = e' then ec else ctx.getEventContext e' := by
  cases e <;> cases e' <;> rfl

@[simp] theorem getEventContext_set_self : (ctx.setEventContext ec e).getEventContext e = ec := by
  simp [getEventContext_set]

@[simp] theorem getEventContext_withEvents (m : EventMask) :
    ({ ctx with m_events := m } : FdContext).getEventContext e = ctx.getEventContext e := by
  cases e <;> rfl

@[simp] theorem resetEventContext_fd : (ctx.resetEventContext e).m_fd = ctx.m_fd :=
  setEventContext_fd _ _ _

@[simp] theorem resetEventContext_events : (ctx.resetEventContext e).m_events = ctx.m_events :=
  setEventContext_events _ _ _

theorem getEventContext_reset :
    (ctx.resetEventContext e).getEventContext e' =
      if e = e' then {} else ctx.getEventContext e' :=
  getEventContext_set _ _ _ _

end Fields

theorem resetEventContext_of_empty {ctx : FdContext} {e : Event} (h : ctx.getEventContext e = {}) :
    ctx.resetEventContext e = ctx := by
  cases ctx
  cases e <;>
    simpa [resetEventContext, setEventContext, getEventContext] using h.symm

theorem triggerEvent_ok_iff {ctx ctx' : FdContext} {e : Event} {w : Waiter} :
    ctx.triggerEvent e = .ok (ctx', w) ↔
      ctx.m_events.has e = true ∧ (ctx.getEventContext e).waiter = some w ∧
        ctx' = ctx.resetEventContext e := by
  unfold triggerEvent
  cases hm : ctx.m_events.has e <;> cases hw : (ctx.getEventContext e).waiter <;> simp
  constructor
  · intro hx
    obtain ⟨rfl, rfl⟩ := hx
    exact ⟨rfl, rfl⟩
  · intro hx
    obtain ⟨rfl, rfl⟩ := hx
    exact ⟨rfl, rfl⟩

end FdContext

end FiberAsync
