import FiberAsync.ContextTable

/-!
# The event API of IOManager

Each operation is a lookup in the table followed by a section guarded by the
context's mutex; the sections are the functions with `Locked` in their name.
-/

namespace FiberAsync

set_option autoImplicit false

open Results

inductive EpollOp where
  | ADD
  | MOD
  | DEL
  deriving DecidableEq, Repr

namespace EpollOp

/-- The kernel's `EEXIST` and `ENOENT` checks on an open, pollable descriptor. -/
def accepts (op : EpollOp) (entry : Option EpollEvent) : Bool :=
  match op with
  | ADD => entry.isNone
  | MOD | DEL => entry.isSome

def stored (op : EpollOp) (ev : EpollEvent) : Option EpollEvent :=
  match op with
  | ADD | MOD => some ev
  | DEL => none

end EpollOp

/-- What `addEvent` reads from the calling thread. -/
structure Caller where
  /-- `Scheduler::GetThis()` -/
  scheduler : Option SchedulerId
  /-- `Fiber::GetThis()` -/
  fiber : FiberId
  /-- that fiber's state is `RUNNING` -/
  running : Bool
  deriving DecidableEq, Repr

/-- A call `addEvent(fd, event, cb)` and its caller. -/
structure AddCall where
  fd : Nat
  event : Event
  cb : Option Callback
  caller : Caller
  deriving DecidableEq, Repr

/-- The slot a successful call fills in. -/
def AddCall.eventContext (c : AddCall) : EventContext where
  scheduler := c.caller.scheduler
  fiber := if c.cb.isSome then none else some c.caller.fiber
  cb := c.cb

inductive Outcome where
  /-- `return 0` -/
  | zero
  /-- `throw std::logic_error("add same event type")` -/
  | logicError
  /-- `return b` -/
  | bool (b : Bool)
  /-- the end of one iteration of the loop in `idle` -/
  | done
  deriving DecidableEq, Repr

namespace IOManager

/-- `epoll_ctl(m_epfd, op, fd, &ev)` and the `qc_assert(!rt)` after it. -/
def epollCtl (io : IOManager) (op : EpollOp) (fd : Nat) (ev : EpollEvent) :
    Except Fault IOManager :=
  if op.accepts (io.epoll fd) then
    .ok { io with epoll := Function.update io.epoll fd (op.stored ev) }
  else .error .epollCtl

def triggerEvent (io : IOManager) (p : ContextPtr) (event : Event) : Except Fault IOManager :=
  (io.contexts p).triggerEvent event >>= fun (ctx, w) =>
    .ok { io.setContext p ctx with tasks := io.tasks ++ [w] }

/-- `triggerEvent` as far as its `add_task`. -/
def handOver (io : IOManager) (p : ContextPtr) (event : Event) : Except Fault IOManager :=
  (io.contexts p).triggerEvent event >>= fun (_, w) => .ok { io with tasks := io.tasks ++ [w] }

/-- The `op` that `addEvent` chooses before it takes the context's mutex. -/
def addOp (io : IOManager) (p : ContextPtr) : EpollOp :=
  if (io.contexts p).m_events ≠ .NONE then .MOD else .ADD

def addEventLocked (io : IOManager) (op : EpollOp) (p : ContextPtr) (c : AddCall) :
    Except Fault (Outcome × IOManager) :=
  let ctx := io.contexts p
  if ctx.m_events.has c.event then .ok (.logicError, io)
  else if ctx.getEventContext c.event ≠ {} then .error .contextInUse
  else if c.cb.isNone ∧ ¬ c.caller.running then .error .fiberNotRunning
  else
    let m_events := ctx.m_events.insert c.event
    let ctx := { ctx with m_events }.setEventContext c.eventContext c.event
    (io.setContext p ctx).epollCtl op c.fd ⟨m_events.bits ||| EPOLLET, p⟩ >>= fun io =>
      .ok (.zero, { io with m_pendingEventCount := io.m_pendingEventCount + 1 })

/-- The end of `delEvent` and `cancelEvent`: `epoll_ctl`, the counter, `m_events = real_event`. -/
def dropEvent (io : IOManager) (p : ContextPtr) (fd : Nat) (event : Event) :
    Except Fault IOManager :=
  let real_event := (io.contexts p).m_events.erase event
  let op := if real_event ≠ .NONE then .MOD else .DEL
  io.epollCtl op fd ⟨real_event.bits, p⟩ >>= fun io =>
    .ok { io.setContext p { io.contexts p with m_events := real_event } with
      m_pendingEventCount := io.m_pendingEventCount - 1 }

def resetContext (io : IOManager) (p : ContextPtr) (event : Event) : IOManager :=
  io.setContext p ((io.contexts p).resetEventContext event)

def delEventLocked (io : IOManager) (p : ContextPtr) (fd : Nat) (event : Event) :
    Except Fault (Outcome × IOManager) :=
  if (io.contexts p).m_events.has event then
    io.dropEvent p fd event >>= fun io => .ok (.bool true, io.resetContext p event)
  else .ok (.bool false, io)

def cancelEventLocked (io : IOManager) (p : ContextPtr) (fd : Nat) (event : Event) :
    Except Fault (Outcome × IOManager) :=
  if (io.contexts p).m_events.has event then
    io.triggerEvent p event >>= fun io =>
    io.dropEvent p fd event >>= fun io => .ok (.bool true, io)
  else .ok (.bool false, io)

/-- `if (m_events & event) { triggerEvent(event); --m_pendingEventCount; }` -/
def triggerCounted (io : IOManager) (p : ContextPtr) (event : Event) : Except Fault IOManager :=
  if (io.contexts p).m_events.has event then
    io.triggerEvent p event >>= fun io =>
      .ok { io with m_pendingEventCount := io.m_pendingEventCount - 1 }
  else .ok io

def cancelAllLocked (io : IOManager) (p : ContextPtr) (fd : Nat) :
    Except Fault (Outcome × IOManager) :=
  if (io.contexts p).m_events = .NONE then .ok (.bool false, io)
  else
    io.triggerCounted p .READ >>= fun io =>
    io.triggerCounted p .WRITE >>= fun io =>
    io.epollCtl .DEL fd ⟨EventMask.NONE.bits, p⟩ >>= fun io =>
      .ok (.bool true, io.setContext p { io.contexts p with m_events := .NONE })

def addEvent (io : IOManager) (c : AddCall) : Except Fault (Outcome × IOManager) :=
  io.findContext c.fd >>= fun
    | some p => io.addEventLocked (io.addOp p) p c
    | none => io.growContext c.fd >>= fun (p, io) => io.addEventLocked (io.addOp p) p c

/-- The common frame of `delEvent`, `cancelEvent` and `cancelAll`. -/
def withContext (io : IOManager) (fd : Nat)
    (locked : ContextPtr → Except Fault (Outcome × IOManager)) :
    Except Fault (Outcome × IOManager) :=
  io.findContext fd >>= fun
    | some p => locked p
    | none => .ok (.bool false, io)

def delEvent (io : IOManager) (fd : Nat) (event : Event) : Except Fault (Outcome × IOManager) :=
  io.withContext fd fun p => io.delEventLocked p fd event

def cancelEvent (io : IOManager) (fd : Nat) (event : Event) : Except Fault (Outcome × IOManager) :=
  io.withContext fd fun p => io.cancelEventLocked p fd event

def cancelAll (io : IOManager) (fd : Nat) : Except Fault (Outcome × IOManager) :=
  io.withContext fd fun p => io.cancelAllLocked p fd

/-- `real_events` in `idle`, for a context and the reported `event.events`. -/
def realEvents (ctx : FdContext) (events : BitVec 32) : EventMask :=
  .ofEpoll (if events &&& (EPOLLERR ||| EPOLLHUP) ≠ 0#32 then
    events ||| ((EPOLLIN ||| EPOLLOUT) &&& ctx.m_events.bits) else events)

/-- The mask check of `idle`: `(fd_ctx->m_events & real_events) != NONE`. -/
def dispatches (io : IOManager) (p : ContextPtr) (events : BitVec 32) : Bool :=
  (io.contexts p).m_events.inter (realEvents (io.contexts p) events) ≠ .NONE

/-- `triggerEvent(event); delEvent(fd_ctx->m_fd, event); --m_pendingEventCount;` -/
def dispatchEvent (io : IOManager) (p : ContextPtr) (event : Event) : Except Fault IOManager :=
  io.triggerEvent p event >>= fun io =>
  io.delEvent (io.contexts p).m_fd event >>= fun (_, io) =>
    .ok { io with m_pendingEventCount := io.m_pendingEventCount - 1 }

/-- One iteration of the event loop in `idle`, for a report `(data.ptr, events)`. -/
def idleEvent (io : IOManager) (p : ContextPtr) (events : BitVec 32) :
    Except Fault (Outcome × IOManager) :=
  let real_events := realEvents (io.contexts p) events
  if io.dispatches p events then
    (if real_events.has .READ then io.dispatchEvent p .READ else .ok io) >>= fun io =>
    (if real_events.has .WRITE then io.dispatchEvent p .WRITE else .ok io) >>= fun io =>
      .ok (.done, io)
  else .ok (.done, io)

end IOManager

namespace IOManager

variable {io io' : IOManager} {p : ContextPtr} {fd : Nat} {e : Event} {op : EpollOp}

theorem epollCtl_ok_iff {ev : EpollEvent} :
    io.epollCtl op fd ev = .ok io' ↔ op.accepts (io.epoll fd) = true ∧
      io' = { io with epoll := Function.update io.epoll fd (op.stored ev) } := by
  unfold epollCtl
  split
  · rename_i h
    simp only [h, ok_eq_ok_iff, true_and]
  · rename_i h
    simp [h]

theorem triggerEvent_ok_iff :
    io.triggerEvent p e = .ok io' ↔ (io.contexts p).m_events.has e = true ∧
      ∃ w, ((io.contexts p).getEventContext e).waiter = some w ∧
        io' = { io.resetContext p e with tasks := io.tasks ++ [w] } := by
  rw [triggerEvent, bind_eq_ok]
  constructor
  · intro hx
    obtain ⟨⟨ctx, w⟩, ht, h⟩ := hx
    obtain ⟨hm, hw, rfl⟩ := FdContext.triggerEvent_ok_iff.mp ht
    exact ⟨hm, w, hw, ok_eq_ok_iff.mp h⟩
  · intro hx
    obtain ⟨hm, w, hw, rfl⟩ := hx
    exact ⟨(_, w), FdContext.triggerEvent_ok_iff.mpr ⟨hm, hw, rfl⟩, rfl⟩

theorem handOver_ok_iff :
    io.handOver p e = .ok io' ↔ (io.contexts p).m_events.has e = true ∧
      ∃ w, ((io.contexts p).getEventContext e).waiter = some w ∧
        io' = { io with tasks := io.tasks ++ [w] } := by
  rw [handOver, bind_eq_ok]
  constructor
  · intro hx
    obtain ⟨⟨ctx, w⟩, ht, h⟩ := hx
    obtain ⟨hm, hw, rfl⟩ := FdContext.triggerEvent_ok_iff.mp ht
    exact ⟨hm, w, hw, ok_eq_ok_iff.mp h⟩
  · intro hx
    obtain ⟨hm, w, hw, rfl⟩ := hx
    exact ⟨(_, w), FdContext.triggerEvent_ok_iff.mpr ⟨hm, hw, rfl⟩, rfl⟩

theorem triggerEvent_eq_handOver :
    io.triggerEvent p e = io.handOver p e >>= fun io => .ok (io.resetContext p e) := by
  unfold triggerEvent handOver
  cases h : (io.contexts p).triggerEvent e with
  | error f => rfl
  | ok x =>
    obtain ⟨ctx, w⟩ := x
    obtain ⟨_, _, rfl⟩ := FdContext.triggerEvent_ok_iff.mp h
    rfl

/-- The state after a successful `addEvent`. -/
def added (io : IOManager) (op : EpollOp) (p : ContextPtr) (c : AddCall) : IOManager :=
  let m_events := (io.contexts p).m_events.insert c.event
  { io.setContext p ({ io.contexts p with m_events }.setEventContext c.eventContext c.event) with
    epoll := Function.update io.epoll c.fd (op.stored ⟨m_events.bits ||| EPOLLET, p⟩)
    m_pendingEventCount := io.m_pendingEventCount + 1 }

theorem addEventLocked_ok_iff {c : AddCall} {r : Outcome} :
    io.addEventLocked op p c = .ok (r, io') ↔
      ((io.contexts p).m_events.has c.event = true ∧ r = .logicError ∧ io' = io) ∨
      ((io.contexts p).m_events.has c.event = false ∧
        (io.contexts p).getEventContext c.event = {} ∧
        (c.cb = none → c.caller.running = true) ∧ op.accepts (io.epoll c.fd) = true ∧
        r = .zero ∧ io' = io.added op p c) := by
  unfold addEventLocked
  dsimp only
  split
  · rename_i hm
    simp [-Except.ok.injEq, hm, ok_pair_iff]
  · rename_i hm
    rw [Bool.not_eq_true] at hm
    split
    · rename_i hs
      simp [hm, hs]
    · rename_i hs
      split
      · rename_i hr
        simp_all
      · rename_i hr
        have hs' := not_not.mp hs
        have hrun : c.cb = none → c.caller.running = true := by simpa using hr
        rw [bind_eq_ok]
        constructor
        · intro hx
          obtain ⟨io₁, hio, h⟩ := hx
          obtain ⟨ha, rfl⟩ := epollCtl_ok_iff.mp hio
          obtain ⟨rfl, rfl⟩ := ok_pair_iff.mp h
          exact Or.inr ⟨hm, hs', hrun, ha, rfl, rfl⟩
        · intro hx
          rcases hx with ⟨h, _⟩ | ⟨_, _, _, ha, rfl, rfl⟩
          · rw [hm] at h
            cases h
          · exact ⟨_, epollCtl_ok_iff.mpr ⟨ha, rfl⟩, rfl⟩

/-- The state after a bit has been taken out of `m_events` and of the interest list. -/
def dropped (io : IOManager) (p : ContextPtr) (fd : Nat) (e : Event) : IOManager :=
  let real_event := (io.contexts p).m_events.erase e
  { io.setContext p { io.contexts p with m_events := real_event } with
    epoll := Function.update io.epoll fd
      (if real_event ≠ .NONE then some ⟨real_event.bits, p⟩ else none)
    m_pendingEventCount := io.m_pendingEventCount - 1 }

theorem dropEvent_ok_iff :
    io.dropEvent p fd e = .ok io' ↔ (io.epoll fd).isSome = true ∧ io' = io.dropped p fd e := by
  simp only [dropEvent, bind_eq_ok, epollCtl_ok_iff]
  by_cases hz : (io.contexts p).m_events.erase e = .NONE
  all_goals
    simp only [ne_eq, hz, not_true_eq_false, not_false_eq_true, if_true, if_false, EpollOp.accepts]
    constructor
    · intro hx
      obtain ⟨io₁, ⟨ha, rfl⟩, h⟩ := hx
      cases h
      exact ⟨ha, by simp [dropped, setContext, EpollOp.stored, hz]⟩
    · intro hx
      obtain ⟨ha, rfl⟩ := hx
      exact ⟨_, ⟨ha, rfl⟩, by simp [dropped, setContext, EpollOp.stored, hz]⟩

theorem delEventLocked_ok_iff {r : Outcome} :
    io.delEventLocked p fd e = .ok (r, io') ↔
      ((io.contexts p).m_events.has e = false ∧ r = .bool false ∧ io' = io) ∨
      ((io.contexts p).m_events.has e = true ∧ (io.epoll fd).isSome = true ∧
        r = .bool true ∧ io' = (io.dropped p fd e).resetContext p e) := by
  unfold delEventLocked
  cases hm : (io.contexts p).m_events.has e
  · simp [-Except.ok.injEq, ok_pair_iff]
  · simp only [if_true, bind_eq_ok, dropEvent_ok_iff]
    constructor
    · intro hx
      obtain ⟨io₁, ⟨ha, rfl⟩, h⟩ := hx
      cases h
      exact Or.inr ⟨trivial, ha, rfl, rfl⟩
    · intro hx
      rcases hx with ⟨h, _⟩ | ⟨_, ha, rfl, rfl⟩
      · cases h
      · exact ⟨_, ⟨ha, rfl⟩, rfl⟩

theorem cancelEventLocked_ok_iff {r : Outcome} :
    io.cancelEventLocked p fd e = .ok (r, io') ↔
      ((io.contexts p).m_events.has e = false ∧ r = .bool false ∧ io' = io) ∨
      ∃ io₁, io.triggerEvent p e = .ok io₁ ∧ (io₁.epoll fd).isSome = true ∧
        r = .bool true ∧ io' = io₁.dropped p fd e := by
  unfold cancelEventLocked
  cases hm : (io.contexts p).m_events.has e
  · simp [-Except.ok.injEq, triggerEvent_ok_iff, hm, ok_pair_iff]
  · simp only [if_true, bind_eq_ok, dropEvent_ok_iff]
    constructor
    · intro hx
      obtain ⟨io₁, ht, io₂, ⟨ha, rfl⟩, h⟩ := hx
      cases h
      exact Or.inr ⟨io₁, ht, ha, rfl, rfl⟩
    · intro hx
      rcases hx with ⟨h, _⟩ | ⟨io₁, ht, ha, rfl, rfl⟩
      · cases h
      · exact ⟨io₁, ht, _, ⟨ha, rfl⟩, rfl⟩

theorem triggerCounted_ok_iff :
    io.triggerCounted p e = .ok io' ↔
      ((io.contexts p).m_events.has e = false ∧ io' = io) ∨
      ∃ io₁, io.triggerEvent p e = .ok io₁ ∧
        io' = { io₁ with m_pendingEventCount := io₁.m_pendingEventCount - 1 } := by
  unfold triggerCounted
  cases hm : (io.contexts p).m_events.has e
  · simp [-Except.ok.injEq, triggerEvent_ok_iff, hm, ok_eq_ok_iff]
  · simp [-Except.ok.injEq, bind_eq_ok, ok_eq_ok_iff]

/-- The state after the `EPOLL_CTL_DEL` and `m_events = NONE` of `cancelAll`. -/
def cleared (io : IOManager) (p : ContextPtr) (fd : Nat) : IOManager :=
  { io.setContext p { io.contexts p with m_events := .NONE } with
    epoll := Function.update io.epoll fd none }

theorem cancelAllLocked_ok_iff {r : Outcome} :
    io.cancelAllLocked p fd = .ok (r, io') ↔
      ((io.contexts p).m_events = .NONE ∧ r = .bool false ∧ io' = io) ∨
      ((io.contexts p).m_events ≠ .NONE ∧
        ∃ io₁ io₂, io.triggerCounted p .READ = .ok io₁ ∧ io₁.triggerCounted p .WRITE = .ok io₂ ∧
          (io₂.epoll fd).isSome = true ∧ r = .bool true ∧ io' = io₂.cleared p fd) := by
  unfold cancelAllLocked
  by_cases hm : (io.contexts p).m_events = .NONE
  · simp [-Except.ok.injEq, hm, ok_pair_iff]
  · rw [if_neg hm]
    simp only [bind_eq_ok, epollCtl_ok_iff, EpollOp.accepts]
    constructor
    · intro hx
      obtain ⟨io₁, h₁, io₂, h₂, io₃, ⟨ha, rfl⟩, h⟩ := hx
      cases h
      exact Or.inr ⟨hm, io₁, io₂, h₁, h₂, ha, rfl, rfl⟩
    · intro hx
      rcases hx with ⟨h, _⟩ | ⟨_, io₁, io₂, h₁, h₂, ha, rfl, rfl⟩
      · exact absurd h hm
      · exact ⟨io₁, h₁, io₂, h₂, _, ⟨ha, rfl⟩, rfl⟩

theorem withContext_ok_iff {locked : ContextPtr → Except Fault (Outcome × IOManager)}
    {r : Outcome} :
    io.withContext fd locked = .ok (r, io') ↔
      (io.findContext fd = .ok none ∧ r = .bool false ∧ io' = io) ∨
      ∃ p, io.findContext fd = .ok (some p) ∧ locked p = .ok (r, io') := by
  simp only [withContext, bind_eq_ok]
  constructor
  · intro hx
    obtain ⟨_ | p, hf, h⟩ := hx
    · cases h
      exact Or.inl ⟨hf, rfl, rfl⟩
    · exact Or.inr ⟨p, hf, h⟩
  · intro hx
    rcases hx with ⟨hf, rfl, rfl⟩ | ⟨p, hf, h⟩
    · exact ⟨none, hf, rfl⟩
    · exact ⟨some p, hf, h⟩

theorem growContext_ok_iff :
    io.growContext fd = .ok (p, io') ↔
      (io.contextResize (fd * 3 / 2)).contextAt fd = .ok p ∧
        io' = (io.contextResize (fd * 3 / 2)).setContext p
          { (io.contextResize (fd * 3 / 2)).contexts p with m_fd := fd } := by
  simp only [growContext, bind_eq_ok]
  constructor
  · intro hx
    obtain ⟨q, hq, h⟩ := hx
    cases h
    exact ⟨hq, rfl⟩
  · intro hx
    obtain ⟨hq, rfl⟩ := hx
    exact ⟨p, hq, rfl⟩

theorem addEvent_ok_iff {c : AddCall} {r : Outcome} :
    io.addEvent c = .ok (r, io') ↔
      (∃ p, io.findContext c.fd = .ok (some p) ∧
        io.addEventLocked (io.addOp p) p c = .ok (r, io')) ∨
      (io.findContext c.fd = .ok none ∧ ∃ p io₁, io.growContext c.fd = .ok (p, io₁) ∧
        io₁.addEventLocked (io₁.addOp p) p c = .ok (r, io')) := by
  simp only [addEvent, bind_eq_ok]
  constructor
  · intro hx
    obtain ⟨_ | p, hf, h⟩ := hx
    · obtain ⟨⟨p, io₁⟩, hg, h⟩ := bind_eq_ok.mp h
      exact Or.inr ⟨hf, p, io₁, hg, h⟩
    · exact Or.inl ⟨p, hf, h⟩
  · intro hx
    rcases hx with ⟨p, hf, h⟩ | ⟨hf, p, io₁, hg, h⟩
    · exact ⟨some p, hf, h⟩
    · exact ⟨none, hf, bind_eq_ok.mpr ⟨(p, io₁), hg, h⟩⟩

theorem dispatchEvent_ok_iff :
    io.dispatchEvent p e = .ok io' ↔ ∃ io₁ r io₂, io.triggerEvent p e = .ok io₁ ∧
      io₁.delEvent (io₁.contexts p).m_fd e = .ok (r, io₂) ∧
        io' = { io₂ with m_pendingEventCount := io₂.m_pendingEventCount - 1 } := by
  simp only [dispatchEvent, bind_eq_ok, Prod.exists]
  constructor
  · intro hx
    obtain ⟨io₁, ht, r, io₂, hd, h⟩ := hx
    cases h
    exact ⟨io₁, r, io₂, ht, hd, rfl⟩
  · intro hx
    obtain ⟨io₁, r, io₂, ht, hd, rfl⟩ := hx
    exact ⟨io₁, ht, r, io₂, hd, rfl⟩

theorem idleEvent_ok_iff {events : BitVec 32} {r : Outcome} :
    io.idleEvent p events = .ok (r, io') ↔ r = .done ∧
      ((io.dispatches p events = false ∧ io' = io) ∨
      (io.dispatches p events = true ∧ ∃ io₁,
        (if (realEvents (io.contexts p) events).has .READ then io.dispatchEvent p .READ
          else .ok io) = .ok io₁ ∧
        (if (realEvents (io.contexts p) events).has .WRITE then io₁.dispatchEvent p .WRITE
          else .ok io₁) = .ok io')) := by
  unfold idleEvent
  cases hd : io.dispatches p events
  · simp [-Except.ok.injEq, ok_pair_iff]
  · simp only [if_true, bind_eq_ok]
    constructor
    · intro hx
      obtain ⟨io₁, h₁, io₂, h₂, h⟩ := hx
      cases h
      exact ⟨rfl, Or.inr ⟨trivial, io₁, h₁, h₂⟩⟩
    · intro hx
      obtain ⟨rfl, ⟨h, _⟩ | ⟨_, io₁, h₁, h₂⟩⟩ := hx
      · cases h
      · exact ⟨io₁, h₁, io', h₂, rfl⟩

section Faults

variable {f : Fault} {c : AddCall}

theorem epollCtl_fault {ev : EpollEvent} (h : io.epollCtl op fd ev = .error f) :
    f = .epollCtl := by
  unfold epollCtl at h
  split at h
  · cases h
  · cases h
    rfl

theorem handOver_fault (h : io.handOver p e = .error f) :
    f = .eventNotSet ∧ (io.contexts p).m_events.has e = false ∨
      f = .nullScheduler ∧ ((io.contexts p).getEventContext e).waiter = none := by
  rcases bind_eq_error.mp h with h | ⟨_, _, h⟩
  · unfold FdContext.triggerEvent at h
    split at h
    · split at h
      · cases h
      · rename_i hw
        cases h
        exact Or.inr ⟨rfl, hw⟩
    · rename_i hm
      cases h
      exact Or.inl ⟨rfl, by simpa using hm⟩
  · cases h

theorem triggerEvent_fault (h : io.triggerEvent p e = .error f) :
    f = .eventNotSet ∧ (io.contexts p).m_events.has e = false ∨
      f = .nullScheduler ∧ ((io.contexts p).getEventContext e).waiter = none := by
  rw [triggerEvent_eq_handOver] at h
  rcases bind_eq_error.mp h with h | ⟨_, _, h⟩
  · exact handOver_fault h
  · cases h

theorem handOver_ne_error {w : Waiter} (hm : (io.contexts p).m_events.has e = true)
    (hw : ((io.contexts p).getEventContext e).waiter = some w) (f : Fault) :
    io.handOver p e ≠ .error f := by
  intro h
  rcases handOver_fault h with ⟨_, hm'⟩ | ⟨_, hw'⟩
  · rw [hm] at hm'
    cases hm'
  · rw [hw] at hw'
    cases hw'

theorem triggerEvent_ne_error {w : Waiter} (hm : (io.contexts p).m_events.has e = true)
    (hw : ((io.contexts p).getEventContext e).waiter = some w) (f : Fault) :
    io.triggerEvent p e ≠ .error f := by
  intro h
  rw [triggerEvent_eq_handOver] at h
  rcases bind_eq_error.mp h with h | ⟨_, _, h⟩
  · exact handOver_ne_error hm hw f h
  · cases h

theorem addEventLocked_fault {op : EpollOp} (h : io.addEventLocked op p c = .error f) :
    f = .contextInUse ∨ f = .fiberNotRunning ∨ f = .epollCtl := by
  unfold addEventLocked at h
  dsimp only at h
  split at h
  · cases h
  · split at h
    · cases h
      exact Or.inl rfl
    · split at h
      · cases h
        exact Or.inr (Or.inl rfl)
      · rcases bind_eq_error.mp h with h | ⟨_, _, h⟩
        · exact Or.inr (Or.inr (epollCtl_fault h))
        · cases h

theorem dropEvent_fault (h : io.dropEvent p fd e = .error f) : f = .epollCtl := by
  rcases bind_eq_error.mp h with h | ⟨_, _, h⟩
  · exact epollCtl_fault h
  · cases h

theorem delEventLocked_fault (h : io.delEventLocked p fd e = .error f) : f = .epollCtl := by
  unfold delEventLocked at h
  split at h
  · rcases bind_eq_error.mp h with h | ⟨_, _, h⟩
    · exact dropEvent_fault h
    · cases h
  · cases h

theorem cancelEventLocked_fault (h : io.cancelEventLocked p fd e = .error f) :
    f = .epollCtl ∨ (io.contexts p).m_events.has e = true ∧ io.triggerEvent p e = .error f := by
  unfold cancelEventLocked at h
  split at h
  · rename_i hm
    rcases bind_eq_error.mp h with h | ⟨_, _, h⟩
    · exact Or.inr ⟨hm, h⟩
    · rcases bind_eq_error.mp h with h | ⟨_, _, h⟩
      · exact Or.inl (dropEvent_fault h)
      · cases h
  · cases h

theorem triggerCounted_fault (h : io.triggerCounted p e = .error f) :
    (io.contexts p).m_events.has e = true ∧ io.triggerEvent p e = .error f := by
  unfold triggerCounted at h
  split at h
  · rename_i hm
    rcases bind_eq_error.mp h with h | ⟨_, _, h⟩
    · exact ⟨hm, h⟩
    · cases h
  · cases h

theorem cancelAllLocked_fault (h : io.cancelAllLocked p fd = .error f) :
    f = .epollCtl ∨ io.triggerCounted p .READ = .error f ∨
      ∃ io₁, io.triggerCounted p .READ = .ok io₁ ∧ io₁.triggerCounted p .WRITE = .error f := by
  unfold cancelAllLocked at h
  split at h
  · cases h
  · rcases bind_eq_error.mp h with h | ⟨io₁, h₁, h⟩
    · exact Or.inr (Or.inl h)
    · rcases bind_eq_error.mp h with h | ⟨io₂, _, h⟩
      · exact Or.inr (Or.inr ⟨io₁, h₁, h⟩)
      · rcases bind_eq_error.mp h with h | ⟨_, _, h⟩
        · exact Or.inl (epollCtl_fault h)
        · cases h

end Faults

theorem has_realEvents (ctx : FdContext) (events : BitVec 32) (e : Event) :
    (realEvents ctx events).has e = (events.getLsbD e.index ||
      (decide (events &&& (EPOLLERR ||| EPOLLHUP) ≠ 0#32) && ctx.m_events.has e)) := by
  have hmask : (EPOLLIN ||| EPOLLOUT).getLsbD e.index = true := by cases e <;> decide
  rw [realEvents, EventMask.has_ofEpoll, EventMask.has_eq_getLsbD]
  split
  · rename_i h
    rw [decide_eq_true h, BitVec.getLsbD_or, BitVec.getLsbD_and, hmask]
  · rename_i h
    rw [decide_eq_false h, Bool.false_and, Bool.or_false]

theorem dispatches_iff {events : BitVec 32} :
    io.dispatches p events = true ↔ ∃ e, (io.contexts p).m_events.has e = true ∧
      (realEvents (io.contexts p) events).has e = true := by
  rw [dispatches, decide_eq_true_iff, EventMask.ne_NONE_iff]
  simp

end IOManager

/-- One complete call, or one event processed by `idle`. -/
inductive Op where
  | addEvent (c : AddCall)
  | delEvent (fd : Nat) (event : Event)
  | cancelEvent (fd : Nat) (event : Event)
  | cancelAll (fd : Nat)
  | idleEvent (fd : Nat) (events : BitVec 32)

def Op.fd : Op → Nat
  | .addEvent c => c.fd
  | .delEvent fd _ | .cancelEvent fd _ | .cancelAll fd | .idleEvent fd _ => fd

/-- The kernel reports an event of a registered descriptor, with bits that are
registered for it or `EPOLLERR` or `EPOLLHUP`. -/
def IOManager.Reported (io : IOManager) (fd : Nat) (events : BitVec 32) (ev : EpollEvent) : Prop :=
  io.epoll fd = some ev ∧ events &&& ~~~(ev.events ||| EPOLLERR ||| EPOLLHUP) = 0#32

/-- The result of one operation, with the pointer that a report carries. -/
def IOManager.exec (io : IOManager) : Op → Except Fault (Outcome × IOManager)
  | .addEvent c => io.addEvent c
  | .delEvent fd event => io.delEvent fd event
  | .cancelEvent fd event => io.cancelEvent fd event
  | .cancelAll fd => io.cancelAll fd
  | .idleEvent fd events =>
    match io.epoll fd with
    | some ev => io.idleEvent ev.ptr events
    | none => .ok (.done, io)

/-- The descriptor is a non-negative `int`, and a report is one the kernel makes. -/
def IOManager.Allowed (io : IOManager) (op : Op) : Prop :=
  op.fd ≤ INT_MAX ∧ ∀ fd events, op = .idleEvent fd events → ∃ ev, io.Reported fd events ev

/-- What the caller of `addEvent` provides: a scheduler, and a running fiber when
it is to be the waiter. -/
structure AddCall.Ready (c : AddCall) : Prop where
  scheduler : c.caller.scheduler.isSome = true
  running : c.cb = none → c.caller.running = true

/-- The state that a call leaves behind, for runs on given inputs. -/
def IOManager.afterCall (io : IOManager) (op : Op) : IOManager :=
  match io.exec op with
  | .ok (_, io') => io'
  | .error _ => io

theorem IOManager.exec_eq_afterCall {io : IOManager} {op : Op} {r : Outcome}
    (h : (io.exec op).toOption.map Prod.fst = some r) :
    io.exec op = .ok (r, io.afterCall op) := by
  unfold afterCall
  cases he : io.exec op with
  | ok x =>
    rw [he] at h
    cases h
    rfl
  | error f =>
    rw [he] at h
    cases h

theorem IOManager.Allowed.of_not_report {io : IOManager} {op : Op} (hle : op.fd ≤ INT_MAX)
    (h : ∀ fd events, op ≠ .idleEvent fd events) : io.Allowed op :=
  ⟨hle, fun fd events heq => absurd heq (h fd events)⟩

end FiberAsync
