import FiberAsync.IOManager
import FiberAsync.ScopedLock
import FiberAsync.Library.Runs

/-!
# The event API under concurrent threads

Any number of threads call the API and process the reports of `epoll_wait`. A
step of a thread is a section under the manager's read-write lock, a section
under a context's mutex, a call on that mutex, or one of the statements that
`idle` executes without a lock. The destructors of the guards are steps of
their own.
-/

namespace FiberAsync

set_option autoImplicit false

open Runs Results

/-- `data.ptr` and `events` of an entry that `epoll_wait` filled in. -/
abbrev Report := ContextPtr × BitVec 32

/-- The three calls that take events out of a context. -/
inductive Removal where
  | delEvent (event : Event)
  | cancelEvent (event : Event)
  | cancelAll
  deriving DecidableEq, Repr

inductive Cause where
  | dispatch
  | delete
  | cancel
  deriving DecidableEq, Repr

/-- One successful `addEvent`: its waiter, the `add_task` calls made for it so
far, and what took it out of `m_events`. -/
structure Registration where
  waiter : Option Waiter
  enqueued : List Waiter := []
  removed : Option Cause := none
  deriving DecidableEq

/-- The registrations made through each context, newest first. The log is kept
for the statements; no step reads it. -/
abbrev Log := ContextPtr → Event → List Registration

/-- Where a thread is in one of the three removing calls. -/
inductive RemovePc where
  | find
  | lock (p : ContextPtr)
  | locked (p : ContextPtr)
  | unlock (p : ContextPtr)
  deriving DecidableEq, Repr

inductive Pc where
  | outside
  | addFind (c : AddCall)
  | addGrow (c : AddCall)
  | addOp (c : AddCall) (p : ContextPtr)
  | addLock (c : AddCall) (op : EpollOp) (p : ContextPtr)
  | addLocked (c : AddCall) (op : EpollOp) (p : ContextPtr)
  | addUnlock (p : ContextPtr)
  | remove (k : Removal) (fd : Nat) (at_ : RemovePc)
  | idleLock (p : ContextPtr) (events : BitVec 32) (more : List Report)
  | idleLocked (p : ContextPtr) (events : BitVec 32) (more : List Report)
  | idleContinue (p : ContextPtr) (more : List Report)
  | idleUnlock (p : ContextPtr) (real : List Event) (more : List Report)
  | idleTrigger (p : ContextPtr) (e : Event) (es : List Event) (more : List Report)
  | idleReset (p : ContextPtr) (e : Event) (es : List Event) (more : List Report)
  | idleDel (p : ContextPtr) (e : Event) (es : List Event) (more : List Report)
  | idleDeleting (p : ContextPtr) (e : Event) (es : List Event) (more : List Report)
      (fd : Nat) (at_ : RemovePc)
  | idleDecrement (p : ContextPtr) (es : List Event) (more : List Report)
  | idleEnd (p : ContextPtr) (more : List Report)
  deriving DecidableEq, Repr

structure Shared where
  io : IOManager
  owner : ContextPtr → Option Tid
  log : Log

structure Threads extends Shared where
  pc : Tid → Pc

/-- Why a step is not taken: the thread waits, or the process has ended. -/
inductive Stop where
  | blocked
  | fault (f : Fault)
  deriving DecidableEq, Repr

def orStop {α : Type} : Except Fault α → Except Stop α
  | .ok a => .ok a
  | .error f => .error (.fault f)

namespace Removal

def selects : Removal → Event → Bool
  | delEvent e, e' | cancelEvent e, e' => e = e'
  | cancelAll, _ => true

/-- The section under the context's mutex. -/
def locked (k : Removal) (io : IOManager) (p : ContextPtr) (fd : Nat) :
    Except Fault (Outcome × IOManager) :=
  match k with
  | delEvent e => io.delEventLocked p fd e
  | cancelEvent e => io.cancelEventLocked p fd e
  | cancelAll => io.cancelAllLocked p fd

def handsOver (k : Removal) (ctx : FdContext) (e : Event) : List Waiter :=
  match k with
  | delEvent _ => []
  | cancelEvent _ | cancelAll => (ctx.getEventContext e).waiter.toList

/-- A user's call is a deletion or a cancellation. -/
def cause : Removal → Cause
  | delEvent _ => .delete
  | cancelEvent _ | cancelAll => .cancel

end Removal

namespace Log

def at_ (log : Log) (p : ContextPtr) (f : Event → List Registration → List Registration) : Log :=
  Function.update log p fun e => f e (log p e)

def opened (log : Log) (p : ContextPtr) (c : AddCall) : Log :=
  log.at_ p fun e l => if e = c.event then { waiter := c.eventContext.waiter } :: l else l

def triggered (log : Log) (p : ContextPtr) (e : Event) (ctx : FdContext) : Log :=
  log.at_ p fun e' l => if e' = e then
    l.modifyHead fun r =>
      { r with enqueued := r.enqueued ++ (ctx.getEventContext e).waiter.toList }
  else l

def removed (log : Log) (p : ContextPtr) (k : Removal) (cause : Cause) (ctx : FdContext) : Log :=
  log.at_ p fun e l => if k.selects e && ctx.m_events.has e then
    l.modifyHead fun r =>
      { r with enqueued := r.enqueued ++ k.handsOver ctx e, removed := some cause }
  else l

end Log

namespace Shared

/-- One call on the plain mutex of a context: `lock` waits until it is free,
`unlock` frees it whoever calls. -/
def call (sh : Shared) (t : Tid) (p : ContextPtr) : LockCall → Except Stop Shared
  | .lock =>
    if sh.owner p = none then .ok { sh with owner := Function.update sh.owner p (some t) }
    else .error .blocked
  | .unlock => .ok { sh with owner := Function.update sh.owner p none }

def calls (sh : Shared) (t : Tid) (p : ContextPtr) : List LockCall → Except Stop Shared
  | [] => .ok sh
  | c :: cs => sh.call t p c >>= fun sh => sh.calls t p cs

/-- The steps of `delEvent`, `cancelEvent` and `cancelAll`; `none` is the return. -/
def removeStep (sh : Shared) (t : Tid) (k : Removal) (cause : Cause) (fd : Nat) :
    RemovePc → Except Stop (Shared × Option RemovePc)
  | .find => orStop (sh.io.findContext fd) >>= fun
    | some p => .ok (sh, some (.lock p))
    | none => .ok (sh, none)
  | .lock p => sh.calls t p Guard.new.2 >>= fun sh => .ok (sh, some (.locked p))
  | .locked p => orStop (k.locked sh.io p fd) >>= fun (_, io) =>
    .ok ({ sh with io, log := sh.log.removed p k cause (sh.io.contexts p) }, some (.unlock p))
  | .unlock p => sh.calls t p (ScopedLockImpl.destroy Guard.new.1).2 >>= fun sh => .ok (sh, none)

end Shared

namespace Pc

def nextReport : List Report → Pc
  | [] => .outside
  | (p, events) :: more => .idleLock p events more

/-- The statements `if (real_events & READ) ..` and `if (real_events & WRITE) ..`. -/
def process (p : ContextPtr) (more : List Report) : List Event → Pc
  | [] => .idleEnd p more
  | e :: es => .idleTrigger p e es more

/-- The events that `idle` processes after its mask check, in order. -/
def realList (real_events : EventMask) : List Event :=
  [Event.READ, Event.WRITE].filter fun e => real_events.has e

end Pc

namespace Shared

/-- The guard object of an iteration of `idle` after its explicit `unlock()`. -/
def released : Guard := Guard.new.1.unlock.1

def step (sh : Shared) (t : Tid) : Pc → Except Stop (Shared × Pc)
  | .outside => .error .blocked
  | .addFind c => orStop (sh.io.findContext c.fd) >>= fun
    | some p => .ok (sh, .addOp c p)
    | none => .ok (sh, .addGrow c)
  | .addGrow c => orStop (sh.io.growContext c.fd) >>= fun (p, io) =>
    .ok ({ sh with io }, .addOp c p)
  | .addOp c p => .ok (sh, .addLock c (sh.io.addOp p) p)
  | .addLock c op p => sh.calls t p Guard.new.2 >>= fun sh => .ok (sh, .addLocked c op p)
  | .addLocked c op p => orStop (sh.io.addEventLocked op p c) >>= fun (r, io) =>
    .ok ({ sh with io, log := if r = .zero then sh.log.opened p c else sh.log }, .addUnlock p)
  | .addUnlock p => sh.calls t p (ScopedLockImpl.destroy Guard.new.1).2 >>= fun sh =>
    .ok (sh, .outside)
  | .remove k fd at_ => sh.removeStep t k k.cause fd at_ >>= fun
    | (sh, some at_) => .ok (sh, .remove k fd at_)
    | (sh, none) => .ok (sh, .outside)
  | .idleLock p events more => sh.calls t p Guard.new.2 >>= fun sh =>
    .ok (sh, .idleLocked p events more)
  | .idleLocked p events more =>
    if sh.io.dispatches p events then
      .ok (sh, .idleUnlock p (Pc.realList (IOManager.realEvents (sh.io.contexts p) events)) more)
    else .ok (sh, .idleContinue p more)
  | .idleContinue p more => sh.calls t p (ScopedLockImpl.destroy Guard.new.1).2 >>= fun sh =>
    .ok (sh, .nextReport more)
  | .idleUnlock p real more => sh.calls t p Guard.new.1.unlock.2 >>= fun sh =>
    .ok (sh, .process p more real)
  | .idleTrigger p e es more => orStop (sh.io.handOver p e) >>= fun io =>
    .ok ({ sh with io, log := sh.log.triggered p e (sh.io.contexts p) }, .idleReset p e es more)
  | .idleReset p e es more => .ok ({ sh with io := sh.io.resetContext p e }, .idleDel p e es more)
  | .idleDel p e es more => .ok (sh, .idleDeleting p e es more (sh.io.contexts p).m_fd .find)
  | .idleDeleting p e es more fd at_ => sh.removeStep t (.delEvent e) .dispatch fd at_ >>= fun
    | (sh, some at_) => .ok (sh, .idleDeleting p e es more fd at_)
    | (sh, none) => .ok (sh, .idleDecrement p es more)
  | .idleDecrement p es more =>
    .ok ({ sh with
      io := { sh.io with m_pendingEventCount := sh.io.m_pendingEventCount - 1 } },
      .process p more es)
  | .idleEnd p more => sh.calls t p (ScopedLockImpl.destroy released).2 >>= fun sh =>
    .ok (sh, .nextReport more)

end Shared

theorem orStop_eq_ok {α : Type} {x : Except Fault α} {a : α} : orStop x = .ok a ↔ x = .ok a := by
  cases x <;> simp [orStop]

theorem orStop_eq_fault {α : Type} {x : Except Fault α} {f : Fault} :
    orStop x = .error (.fault f) ↔ x = .error f := by
  cases x <;> simp [orStop]

namespace Shared

variable {sh sh' : Shared} {t : Tid} {p : ContextPtr}

theorem calls_lock_ok_iff :
    sh.calls t p Guard.new.2 = .ok sh' ↔
      sh.owner p = none ∧ sh' = { sh with owner := Function.update sh.owner p (some t) } := by
  simp only [Guard.new, calls, call, bind_eq_ok]
  split
  · rename_i h
    simp [h, eq_comm]
  · rename_i h
    simp [h]

theorem calls_unlock_ok_iff :
    sh.calls t p [.unlock] = .ok sh' ↔
      sh' = { sh with owner := Function.update sh.owner p none } := by
  simp only [calls, call, bind_eq_ok]
  exact ⟨fun ⟨_, h, h'⟩ => by cases h; cases h'; rfl, fun h => ⟨_, rfl, by rw [h]⟩⟩

inductive RemoveSteps (sh : Shared) (t : Tid) (k : Removal) (cause : Cause) (fd : Nat) :
    RemovePc → Shared → Option RemovePc → Prop where
  | found {p : ContextPtr} : sh.io.findContext fd = .ok (some p) →
      RemoveSteps sh t k cause fd .find sh (some (.lock p))
  | missing : sh.io.findContext fd = .ok none → RemoveSteps sh t k cause fd .find sh none
  | lock {p : ContextPtr} : sh.owner p = none → RemoveSteps sh t k cause fd (.lock p)
      { sh with owner := Function.update sh.owner p (some t) } (some (.locked p))
  | locked {p : ContextPtr} {r : Outcome} {io : IOManager} : k.locked sh.io p fd = .ok (r, io) →
      RemoveSteps sh t k cause fd (.locked p)
        { sh with io, log := sh.log.removed p k cause (sh.io.contexts p) } (some (.unlock p))
  | unlock {p : ContextPtr} : RemoveSteps sh t k cause fd (.unlock p)
      { sh with owner := Function.update sh.owner p none } none

theorem RemoveSteps.of_step {k : Removal} {cause : Cause} {fd : Nat} {at_ : RemovePc}
    {o : Option RemovePc} (h : sh.removeStep t k cause fd at_ = .ok (sh', o)) :
    RemoveSteps sh t k cause fd at_ sh' o := by
  cases at_ with
  | find =>
    simp only [removeStep, bind_eq_ok, orStop_eq_ok] at h
    obtain ⟨_ | p, hf, h⟩ := h
    · cases h
      exact .missing hf
    · cases h
      exact .found hf
  | lock p =>
    simp only [removeStep, bind_eq_ok, calls_lock_ok_iff] at h
    obtain ⟨_, ⟨hfree, rfl⟩, h⟩ := h
    cases h
    exact .lock hfree
  | locked p =>
    simp only [removeStep, bind_eq_ok, orStop_eq_ok, Prod.exists] at h
    obtain ⟨r, io, hl, h⟩ := h
    cases h
    exact .locked hl
  | unlock p =>
    simp only [removeStep, ScopedLockImpl.destroy, bind_eq_ok, calls_unlock_ok_iff] at h
    obtain ⟨_, rfl, h⟩ := h
    cases h
    exact .unlock

/-- All that a thread can do, position by position. -/
inductive Steps (sh : Shared) (t : Tid) : Pc → Shared → Pc → Prop where
  | addFound {c : AddCall} {p : ContextPtr} : sh.io.findContext c.fd = .ok (some p) →
      Steps sh t (.addFind c) sh (.addOp c p)
  | addMissing {c : AddCall} : sh.io.findContext c.fd = .ok none →
      Steps sh t (.addFind c) sh (.addGrow c)
  | addGrow {c : AddCall} {p : ContextPtr} {io : IOManager} :
      sh.io.growContext c.fd = .ok (p, io) →
      Steps sh t (.addGrow c) { sh with io } (.addOp c p)
  | addOp {c : AddCall} {p : ContextPtr} :
      Steps sh t (.addOp c p) sh (.addLock c (sh.io.addOp p) p)
  | addLock {c : AddCall} {op : EpollOp} {p : ContextPtr} : sh.owner p = none →
      Steps sh t (.addLock c op p) { sh with owner := Function.update sh.owner p (some t) }
        (.addLocked c op p)
  | addLocked {c : AddCall} {op : EpollOp} {p : ContextPtr} {r : Outcome} {io : IOManager} :
      sh.io.addEventLocked op p c = .ok (r, io) →
      Steps sh t (.addLocked c op p)
        { sh with io, log := if r = .zero then sh.log.opened p c else sh.log } (.addUnlock p)
  | addUnlock {p : ContextPtr} :
      Steps sh t (.addUnlock p) { sh with owner := Function.update sh.owner p none } .outside
  | removeStep {k : Removal} {fd : Nat} {at_ at' : RemovePc} {sh' : Shared} :
      RemoveSteps sh t k k.cause fd at_ sh' (some at') →
      Steps sh t (.remove k fd at_) sh' (.remove k fd at')
  | removeReturn {k : Removal} {fd : Nat} {at_ : RemovePc} {sh' : Shared} :
      RemoveSteps sh t k k.cause fd at_ sh' none → Steps sh t (.remove k fd at_) sh' .outside
  | idleLock {p : ContextPtr} {events : BitVec 32} {more : List Report} : sh.owner p = none →
      Steps sh t (.idleLock p events more)
        { sh with owner := Function.update sh.owner p (some t) } (.idleLocked p events more)
  | idleDispatch {p : ContextPtr} {events : BitVec 32} {more : List Report} :
      sh.io.dispatches p events = true →
      Steps sh t (.idleLocked p events more) sh
        (.idleUnlock p (Pc.realList (IOManager.realEvents (sh.io.contexts p) events)) more)
  | idleSkip {p : ContextPtr} {events : BitVec 32} {more : List Report} :
      sh.io.dispatches p events = false →
      Steps sh t (.idleLocked p events more) sh (.idleContinue p more)
  | idleContinue {p : ContextPtr} {more : List Report} :
      Steps sh t (.idleContinue p more) { sh with owner := Function.update sh.owner p none }
        (.nextReport more)
  | idleUnlock {p : ContextPtr} {real : List Event} {more : List Report} :
      Steps sh t (.idleUnlock p real more) { sh with owner := Function.update sh.owner p none }
        (.process p more real)
  | idleTrigger {p : ContextPtr} {e : Event} {es : List Event} {more : List Report}
      {io : IOManager} : sh.io.handOver p e = .ok io →
      Steps sh t (.idleTrigger p e es more)
        { sh with io, log := sh.log.triggered p e (sh.io.contexts p) } (.idleReset p e es more)
  | idleReset {p : ContextPtr} {e : Event} {es : List Event} {more : List Report} :
      Steps sh t (.idleReset p e es more) { sh with io := sh.io.resetContext p e }
        (.idleDel p e es more)
  | idleDel {p : ContextPtr} {e : Event} {es : List Event} {more : List Report} :
      Steps sh t (.idleDel p e es more) sh
        (.idleDeleting p e es more (sh.io.contexts p).m_fd .find)
  | deleteStep {p : ContextPtr} {e : Event} {es : List Event} {more : List Report} {fd : Nat}
      {at_ at' : RemovePc} {sh' : Shared} :
      RemoveSteps sh t (.delEvent e) .dispatch fd at_ sh' (some at') →
      Steps sh t (.idleDeleting p e es more fd at_) sh' (.idleDeleting p e es more fd at')
  | deleteReturn {p : ContextPtr} {e : Event} {es : List Event} {more : List Report} {fd : Nat}
      {at_ : RemovePc} {sh' : Shared} :
      RemoveSteps sh t (.delEvent e) .dispatch fd at_ sh' none →
      Steps sh t (.idleDeleting p e es more fd at_) sh' (.idleDecrement p es more)
  | idleDecrement {p : ContextPtr} {es : List Event} {more : List Report} :
      Steps sh t (.idleDecrement p es more)
        { sh with io := { sh.io with m_pendingEventCount := sh.io.m_pendingEventCount - 1 } }
        (.process p more es)
  | idleEnd {p : ContextPtr} {more : List Report} :
      Steps sh t (.idleEnd p more) { sh with owner := Function.update sh.owner p none }
        (.nextReport more)

theorem Steps.of_step {pc pc' : Pc} (h : sh.step t pc = .ok (sh', pc')) :
    Steps sh t pc sh' pc' := by
  cases pc with
  | outside => cases h
  | addFind c =>
    simp only [step, bind_eq_ok, orStop_eq_ok] at h
    obtain ⟨_ | p, hf, h⟩ := h
    · cases h
      exact .addMissing hf
    · cases h
      exact .addFound hf
  | addGrow c =>
    simp only [step, bind_eq_ok, orStop_eq_ok, Prod.exists] at h
    obtain ⟨p, io, hg, h⟩ := h
    cases h
    exact .addGrow hg
  | addOp c p =>
    cases h
    exact .addOp
  | addLock c op p =>
    simp only [step, bind_eq_ok, calls_lock_ok_iff] at h
    obtain ⟨_, ⟨hfree, rfl⟩, h⟩ := h
    cases h
    exact .addLock hfree
  | addLocked c op p =>
    simp only [step, bind_eq_ok, orStop_eq_ok, Prod.exists] at h
    obtain ⟨r, io, hl, h⟩ := h
    cases h
    exact .addLocked hl
  | addUnlock p =>
    simp only [step, ScopedLockImpl.destroy, bind_eq_ok, calls_unlock_ok_iff] at h
    obtain ⟨_, rfl, h⟩ := h
    cases h
    exact .addUnlock
  | remove k fd at_ =>
    simp only [step, bind_eq_ok] at h
    obtain ⟨⟨_, _ | _⟩, hr, h⟩ := h
    · cases h
      exact .removeReturn (.of_step hr)
    · cases h
      exact .removeStep (.of_step hr)
  | idleLock p events more =>
    simp only [step, bind_eq_ok, calls_lock_ok_iff] at h
    obtain ⟨_, ⟨hfree, rfl⟩, h⟩ := h
    cases h
    exact .idleLock hfree
  | idleLocked p events more =>
    simp only [step] at h
    split at h
    · rename_i hd
      cases h
      exact .idleDispatch hd
    · rename_i hd
      cases h
      exact .idleSkip (by simpa using hd)
  | idleContinue p more =>
    simp only [step, ScopedLockImpl.destroy, bind_eq_ok, calls_unlock_ok_iff] at h
    obtain ⟨_, rfl, h⟩ := h
    cases h
    exact .idleContinue
  | idleUnlock p real more =>
    simp only [step, Guard.new, Guard.unlock, if_true, bind_eq_ok, calls_unlock_ok_iff] at h
    obtain ⟨_, rfl, h⟩ := h
    cases h
    exact .idleUnlock
  | idleTrigger p e es more =>
    simp only [step, bind_eq_ok, orStop_eq_ok] at h
    obtain ⟨io, ht, h⟩ := h
    cases h
    exact .idleTrigger ht
  | idleReset p e es more =>
    cases h
    exact .idleReset
  | idleDel p e es more =>
    cases h
    exact .idleDel
  | idleDeleting p e es more fd at_ =>
    simp only [step, bind_eq_ok] at h
    obtain ⟨⟨_, _ | _⟩, hr, h⟩ := h
    · cases h
      exact .deleteReturn (.of_step hr)
    · cases h
      exact .deleteStep (.of_step hr)
  | idleDecrement p es more =>
    cases h
    exact .idleDecrement
  | idleEnd p more =>
    simp only [step, ScopedLockImpl.destroy, bind_eq_ok, calls_unlock_ok_iff] at h
    obtain ⟨_, rfl, h⟩ := h
    cases h
    exact .idleEnd

/-- The steps that can end the process. -/
inductive StepFault (sh : Shared) (f : Fault) : Pc → Prop where
  | addFind {c : AddCall} : sh.io.findContext c.fd = .error f → StepFault sh f (.addFind c)
  | addGrow {c : AddCall} : sh.io.growContext c.fd = .error f → StepFault sh f (.addGrow c)
  | addLocked {c : AddCall} {op : EpollOp} {p : ContextPtr} :
      sh.io.addEventLocked op p c = .error f → StepFault sh f (.addLocked c op p)
  | removeFind {k : Removal} {fd : Nat} :
      sh.io.findContext fd = .error f → StepFault sh f (.remove k fd .find)
  | removeLocked {k : Removal} {fd : Nat} {p : ContextPtr} :
      k.locked sh.io p fd = .error f → StepFault sh f (.remove k fd (.locked p))
  | idleTrigger {p : ContextPtr} {e : Event} {es : List Event} {more : List Report} :
      sh.io.handOver p e = .error f → StepFault sh f (.idleTrigger p e es more)
  | deleteFind {p : ContextPtr} {e : Event} {es : List Event} {more : List Report} {fd : Nat} :
      sh.io.findContext fd = .error f → StepFault sh f (.idleDeleting p e es more fd .find)
  | deleteLocked {p q : ContextPtr} {e : Event} {es : List Event} {more : List Report} {fd : Nat} :
      (Removal.delEvent e).locked sh.io q fd = .error f →
      StepFault sh f (.idleDeleting p e es more fd (.locked q))

theorem call_ne_fault (c : LockCall) (f : Fault) : sh.call t p c ≠ .error (.fault f) := by
  cases c <;> simp only [call]
  · split <;> simp
  · simp

theorem calls_ne_fault (l : List LockCall) (f : Fault) : sh.calls t p l ≠ .error (.fault f) := by
  induction l generalizing sh with
  | nil => simp [calls]
  | cons c cs ih =>
    intro h
    rcases bind_eq_error.mp h with h | ⟨sh', _, h⟩
    · exact call_ne_fault c f h
    · exact ih h

theorem removeStep_fault {k : Removal} {cause : Cause} {fd : Nat} {at_ : RemovePc} {f : Fault}
    (h : sh.removeStep t k cause fd at_ = .error (.fault f)) :
    at_ = .find ∧ sh.io.findContext fd = .error f ∨
      ∃ p, at_ = .locked p ∧ k.locked sh.io p fd = .error f := by
  cases at_ with
  | find =>
    rcases bind_eq_error.mp h with h | ⟨_ | p, _, h⟩
    · exact Or.inl ⟨rfl, orStop_eq_fault.mp h⟩
    · cases h
    · cases h
  | lock p | unlock p =>
    rcases bind_eq_error.mp h with h | ⟨_, _, h⟩
    · exact absurd h (calls_ne_fault _ f)
    · cases h
  | locked p =>
    rcases bind_eq_error.mp h with h | ⟨_, _, h⟩
    · exact Or.inr ⟨p, rfl, orStop_eq_fault.mp h⟩
    · cases h

theorem StepFault.of_step {pc : Pc} {f : Fault} (h : sh.step t pc = .error (.fault f)) :
    StepFault sh f pc := by
  cases pc with
  | outside => cases h
  | addOp c p => cases h
  | idleReset p e es more => cases h
  | idleDel p e es more => cases h
  | idleDecrement p es more => cases h
  | addFind c =>
    rcases bind_eq_error.mp h with h | ⟨_ | p, _, h⟩
    · exact .addFind (orStop_eq_fault.mp h)
    · cases h
    · cases h
  | addGrow c =>
    rcases bind_eq_error.mp h with h | ⟨_, _, h⟩
    · exact .addGrow (orStop_eq_fault.mp h)
    · cases h
  | addLocked c op p =>
    rcases bind_eq_error.mp h with h | ⟨_, _, h⟩
    · exact .addLocked (orStop_eq_fault.mp h)
    · cases h
  | idleTrigger p e es more =>
    rcases bind_eq_error.mp h with h | ⟨_, _, h⟩
    · exact .idleTrigger (orStop_eq_fault.mp h)
    · cases h
  | addLock c op p | idleLock p events more | addUnlock p | idleContinue p more
  | idleUnlock p real more | idleEnd p more =>
    rcases bind_eq_error.mp h with h | ⟨_, _, h⟩
    · exact absurd h (calls_ne_fault _ f)
    · cases h
  | idleLocked p events more =>
    simp only [step] at h
    split at h <;> cases h
  | remove k fd at_ =>
    rcases bind_eq_error.mp h with h | ⟨⟨_, _ | _⟩, _, h⟩
    · rcases removeStep_fault h with ⟨rfl, hf⟩ | ⟨p, rfl, hf⟩
      · exact .removeFind hf
      · exact .removeLocked hf
    · cases h
    · cases h
  | idleDeleting p e es more fd at_ =>
    rcases bind_eq_error.mp h with h | ⟨⟨_, _ | _⟩, _, h⟩
    · rcases removeStep_fault h with ⟨rfl, hf⟩ | ⟨q, rfl, hf⟩
      · exact .deleteFind hf
      · exact .deleteLocked hf
    · cases h
    · cases h

end Shared

inductive Act where
  | addEvent (t : Tid) (c : AddCall)
  | remove (t : Tid) (k : Removal) (fd : Nat)
  | report (t : Tid) (reports : List Report)
  | run (t : Tid)

/-- The thread whose step it is. -/
def Act.tid : Act → Tid
  | .addEvent t _ | .remove t _ _ | .report t _ | .run t => t

namespace Threads

def start (s : Threads) (t : Tid) (pc : Pc) : Except Stop Threads :=
  if s.pc t = .outside then .ok { s with pc := Function.update s.pc t pc } else .error .blocked

def exec (s : Threads) : Act → Except Stop Threads
  | .addEvent t c => s.start t (.addFind c)
  | .remove t k fd => s.start t (.remove k fd .find)
  | .report t reports => s.start t (.nextReport reports)
  | .run t => s.toShared.step t (s.pc t) >>= fun (sh, pc) =>
    .ok { sh with pc := Function.update s.pc t pc }

variable {s s' : Threads} {t : Tid}

theorem start_ok_iff {pc : Pc} :
    s.start t pc = .ok s' ↔ s.pc t = .outside ∧
      s' = { s with pc := Function.update s.pc t pc } := by
  unfold start
  split
  · rename_i h
    simp [h, eq_comm]
  · rename_i h
    simp [h]

theorem steps_of_run (h : s.exec (.run t) = .ok s') :
    ∃ sh pc, Shared.Steps s.toShared t (s.pc t) sh pc ∧
      s' = { sh with pc := Function.update s.pc t pc } := by
  simp only [exec, bind_eq_ok, Prod.exists] at h
  obtain ⟨sh, pc, hs, h⟩ := h
  cases h
  exact ⟨sh, pc, .of_step hs, rfl⟩

theorem pc_of_ne {a : Act} (h : s.exec a = .ok s') {u : Tid} (hu : u ≠ a.tid) :
    s'.pc u = s.pc u := by
  have hstart : ∀ {t pc}, u ≠ t → s.start t pc = .ok s' → s'.pc u = s.pc u := by
    intro t pc hut hs
    obtain ⟨_, rfl⟩ := start_ok_iff.mp hs
    exact Function.update_of_ne hut _ _
  cases a with
  | addEvent t c => exact hstart hu h
  | remove t k fd => exact hstart hu h
  | report t reports => exact hstart hu h
  | run t =>
    obtain ⟨sh, pc, _, rfl⟩ := steps_of_run h
    exact Function.update_of_ne hu _ _

/-- Only the threads of `b` have made calls. -/
def Within (s : Threads) (b : List Tid) : Prop := ∀ t, t ∉ b → s.pc t = .outside

theorem Within.exec {b : List Tid} {a : Act} (hs : s.Within b) (ha : a.tid ∈ b)
    (h : s.exec a = .ok s') : s'.Within b := by
  intro t ht
  have hne : t ≠ a.tid := by
    rintro rfl
    exact ht ha
  exact (pc_of_ne h hne).trans (hs t ht)

theorem fault_of_exec {a : Act} {f : Fault} (h : s.exec a = .error (.fault f)) :
    ∃ t, a = .run t ∧ Shared.StepFault s.toShared f (s.pc t) := by
  have hstart : ∀ t pc, s.start t pc ≠ .error (.fault f) := by
    intro t pc
    unfold start
    split <;> simp
  cases a with
  | addEvent t c => exact absurd h (hstart _ _)
  | remove t k fd => exact absurd h (hstart _ _)
  | report t reports => exact absurd h (hstart _ _)
  | run t =>
    rcases bind_eq_error.mp h with h | ⟨_, _, h⟩
    · exact ⟨t, rfl, .of_step h⟩
    · cases h

/-- Descriptors are non-negative `int`s, and the kernel reports registered
descriptors with bits that are registered for them, `EPOLLERR` or `EPOLLHUP`. -/
def Allowed (s : Threads) : Act → Prop
  | .addEvent _ c => c.fd ≤ INT_MAX
  | .remove _ _ fd => fd ≤ INT_MAX
  | .report _ reports => ∀ r ∈ reports, ∃ fd ev, s.io.Reported fd r.2 ev ∧ ev.ptr = r.1
  | .run _ => True

def initial : Threads where
  io := .initial
  owner _ := none
  log _ _ := []
  pc _ := .outside

def system : System Threads Act where
  init s := s = initial
  step s a s' := s.Allowed a ∧ s.exec a = .ok s'

theorem within_of_run {b : List Tid} {tr : List (Move Threads Act)}
    (hr : Run system initial tr s) (hb : ∀ m ∈ tr, m.act.tid ∈ b) :
    ∀ m ∈ tr, m.pre.Within b := by
  have keeps : ∀ {s a s'}, Within s b → a.tid ∈ b → system.step s a s' → s'.Within b :=
    fun hs ha h => hs.exec ha h.2
  exact fun m hm => (hr.invariant_at_of_guard (fun s => s.Within b) (fun _ a => a.tid ∈ b) keeps
    (fun _ _ => rfl) hb hm).1

/-- A sufficient test for `Allowed`, on the descriptor the context was made for. -/
def allows (s : Threads) : Act → Bool
  | .addEvent _ c => c.fd ≤ INT_MAX
  | .remove _ _ fd => fd ≤ INT_MAX
  | .report _ reports => reports.all fun r =>
    match s.io.epoll (s.io.contexts r.1).m_fd with
    | some ev => ev.ptr = r.1 ∧ r.2 &&& ~~~(ev.events ||| EPOLLERR ||| EPOLLHUP) = 0#32
    | none => false
  | .run _ => true

/-- The step function of `system`, for runs on given schedules. -/
def next (s : Threads) (a : Act) : Option Threads :=
  if s.allows a then (s.exec a).toOption else none

theorem allowed_of_allows {a : Act} (h : s.allows a = true) : s.Allowed a := by
  cases a with
  | report t reports =>
    intro r hr
    have htest := List.all_eq_true.mp h r hr
    split at htest
    · rename_i ev hev
      have hbits := of_decide_eq_true htest
      exact ⟨_, ev, ⟨hev, hbits.2⟩, hbits.1⟩
    · cases htest
  | run t => trivial
  | _ => simpa [allows, Allowed] using h

theorem next_sound {s s' : Threads} {a : Act} (h : s.next a = some s') : system.step s a s' := by
  obtain ⟨hallows, h⟩ := Option.ite_none_right_eq_some.mp h
  exact ⟨allowed_of_allows hallows, toOption_eq_some.mp h⟩

end Threads

end FiberAsync
