import FiberAsync.EventInterest
import FiberAsync.Registrations

/-!
# The map that the table of contexts stands for

`RepInv` ties the bit of an event, its slot and the interest list together.
Taking one event out of all three keeps it and takes the pair out of the map,
and this is what `delEvent`, `cancelEvent` and a dispatched event do.
-/

namespace FiberAsync

set_option autoImplicit false

open Results

namespace FdContext

def registration (ctx : FdContext) (e : Event) : Option Waiter :=
  if ctx.m_events.has e then (ctx.getEventContext e).waiter else none

/-- The bit of an event is set exactly when its slot is armed, and otherwise the
slot is empty. -/
structure SlotsOk (ctx : FdContext) : Prop where
  armed : ∀ e, ctx.m_events.has e = true ↔ (ctx.getEventContext e).Armed
  empty : ∀ e, ctx.m_events.has e = false → ctx.getEventContext e = {}

/-- The context with one event taken out of the mask and its slot emptied. -/
def without (ctx : FdContext) (e : Event) : FdContext :=
  ({ ctx with m_events := ctx.m_events.erase e } : FdContext).resetEventContext e

variable {ctx : FdContext} {e e' : Event}

theorem not_armed_empty : ¬ ({} : EventContext).Armed := fun h => Bool.false_ne_true h.1

theorem slotsOk_new (fd : Nat) : ({ m_fd := fd } : FdContext).SlotsOk := by
  refine ⟨fun e => ⟨fun h => absurd h (by simp), fun h => ?_⟩, fun e _ => by cases e <;> rfl⟩
  cases e
  · exact absurd h not_armed_empty
  · exact absurd h not_armed_empty

theorem SlotsOk.registration_isSome (h : ctx.SlotsOk) (e : Event) :
    (ctx.registration e).isSome = ctx.m_events.has e := by
  unfold registration
  cases hm : ctx.m_events.has e with
  | false => rfl
  | true =>
    rw [if_pos rfl, EventContext.waiter_isSome]
    exact ((h.armed e).mp hm).1

theorem without_has : (ctx.without e).m_events.has e' =
    (ctx.m_events.has e' && decide (e ≠ e')) := by simp [without]

theorem without_slot : (ctx.without e).getEventContext e' =
    if e = e' then {} else ctx.getEventContext e' := by
  simp [without, getEventContext_reset]

theorem SlotsOk.without (h : ctx.SlotsOk) (e : Event) : (ctx.without e).SlotsOk := by
  constructor
  · intro e'
    rw [without_has, without_slot]
    by_cases he : e = e'
    · simp [he, not_armed_empty]
    · simpa [he] using h.armed e'
  · intro e'
    rw [without_has, without_slot]
    by_cases he : e = e'
    · simp [he]
    · simpa [he] using h.empty e'

theorem registration_without : (ctx.without e).registration e' =
    if e = e' then none else ctx.registration e' := by
  unfold registration
  rw [without_has, without_slot]
  by_cases he : e = e' <;> simp [he]

theorem resetEventContext_withEvents (ctx : FdContext) (e : Event) (m : EventMask) :
    { ctx.resetEventContext e with m_events := m } =
      ({ ctx with m_events := m } : FdContext).resetEventContext e := by
  cases e <;> rfl

end FdContext

theorem AddCall.Ready.armed {c : AddCall} (h : c.Ready) : c.eventContext.Armed := by
  refine ⟨h.scheduler, ?_⟩
  unfold AddCall.eventContext
  cases c.cb <;> simp

namespace IOManager

variable {io io' : IOManager} {p : ContextPtr} {fd : Nat} {e : Event} {r : Outcome}

structure RepInv (io : IOManager) : Prop where
  ok : EventsOk io
  large : 32 ≤ io.m_fdContexts.length
  small : io.m_fdContexts.length ≤ INT_MAX
  placed : ∀ p < io.allocated, io.m_fdContexts[(io.contexts p).m_fd]? = some (some p)
  slots : ∀ p < io.allocated, (io.contexts p).SlotsOk
  mask : ∀ fd ev, io.epoll fd = some ev → ∀ e : Event,
    ev.events.getLsbD e.index = (io.contexts ev.ptr).m_events.has e

/-- The map of registrations that a state stands for. -/
def abs (io : IOManager) : Registrations where
  waiters fd e := io.m_fdContexts[fd]?.join.bind fun p => (io.contexts p).registration e
  enqueued := io.tasks

theorem abs_waiters_of_contextAt (hp : io.contextAt fd = .ok p) :
    io.abs.waiters fd e = (io.contexts p).registration e := by
  simp [abs, contextAt_ok_iff.mp hp]

theorem abs_waiters_of_length_le (h : io.m_fdContexts.length ≤ fd) :
    io.abs.waiters fd e = none := by
  simp [abs, List.getElem?_eq_none h]

theorem RepInv.registration_isSome (hi : RepInv io) (hp : io.contextAt fd = .ok p) :
    (io.abs.waiters fd e).isSome = (io.contexts p).m_events.has e := by
  rw [abs_waiters_of_contextAt hp]
  exact (hi.slots p (hi.ok.table.of_contextAt hp).1).registration_isSome e

theorem RepInv.not_has_of_absent (hi : RepInv io) (hp : io.contextAt fd = .ok p)
    (hm : (io.contexts p).m_events.has e = false) : io.abs.waiters fd e = none := by
  rw [← Option.not_isSome_iff_eq_none, hi.registration_isSome hp, hm]
  exact Bool.false_ne_true

theorem RepInv.waiter_of_has (hi : RepInv io) (hp : io.contextAt fd = .ok p)
    (hm : (io.contexts p).m_events.has e = true) :
    ∃ w, ((io.contexts p).getEventContext e).waiter = some w ∧
      io.abs.waiters fd e = some w := by
  have hsome := hi.registration_isSome (e := e) hp
  rw [hm] at hsome
  obtain ⟨w, hw⟩ := Option.isSome_iff_exists.mp hsome
  refine ⟨w, ?_, hw⟩
  rw [abs_waiters_of_contextAt hp, FdContext.registration, if_pos hm] at hw
  exact hw

/-- Overwriting the context of `fd` and its entry in the interest list changes
the map at `fd` only. -/
theorem RepInv.rewritten (hi : RepInv io) (hp : io.contextAt fd = .ok p) {ctx : FdContext}
    {entry : Option EpollEvent} (h : Rewritten io p ctx entry io') (hok : EventsOk io')
    (hslots : ctx.SlotsOk)
    (hentry : ∀ ev, entry = some ev → ev.ptr = p ∧
      ∀ e : Event, ev.events.getLsbD e.index = ctx.m_events.has e) :
    RepInv io' ∧ io'.contextAt fd = .ok p ∧ ∀ fd' e, io'.abs.waiters fd' e =
      if fd' = fd then ctx.registration e else io.abs.waiters fd' e := by
  obtain ⟨hlt, hm⟩ := hi.ok.table.of_contextAt hp
  have hfd : ctx.m_fd = fd := h.fd.trans hm
  refine ⟨⟨hok, h.table ▸ hi.large, h.table ▸ hi.small, ?_, ?_, ?_⟩, ?_, ?_⟩
  · intro q hq
    rw [h.allocated] at hq
    rw [h.table, h.contexts]
    by_cases hqp : q = p
    · subst q
      rw [Function.update_self, h.fd]
      exact hi.placed p hq
    · rw [Function.update_of_ne hqp]
      exact hi.placed q hq
  · intro q hq
    rw [h.allocated] at hq
    rw [h.contexts]
    by_cases hqp : q = p
    · subst q
      rw [Function.update_self]
      exact hslots
    · rw [Function.update_of_ne hqp]
      exact hi.slots q hq
  · intro fd' ev hev
    rw [h.contexts]
    rw [h.epoll, hfd] at hev
    by_cases hx : fd' = fd
    · subst fd'
      rw [Function.update_self] at hev
      obtain ⟨hptr, hbits⟩ := hentry ev hev
      rw [hptr, Function.update_self]
      exact hbits
    · rw [Function.update_of_ne hx] at hev
      have hne : ev.ptr ≠ p := by
        intro heq
        have hback := (hi.ok.back fd' ev hev).2.1
        rw [heq, hm] at hback
        exact hx hback.symm
      rw [Function.update_of_ne hne]
      exact hi.mask fd' ev hev
  · rw [contextAt_ok_iff, h.table]
    exact contextAt_ok_iff.mp hp
  · intro fd' e
    simp only [abs, h.table, h.contexts]
    by_cases hx : fd' = fd
    · subst fd'
      simp [contextAt_ok_iff.mp hp]
    · rw [if_neg hx]
      cases hq : io.m_fdContexts[fd']?.join with
      | none => rfl
      | some q =>
        obtain ⟨q', hq', _, hqfd⟩ := hi.ok.table fd' (some q) (Option.join_eq_some_iff.mp hq)
        cases hq'
        have hne : q ≠ p := by
          intro heq
          rw [heq, hm] at hqfd
          exact hx hqfd.symm
        simp only [Option.bind_some, Function.update_of_ne hne]

/-- One event has been taken out of a context, its slot and the interest list. -/
def Removes (io : IOManager) (p : ContextPtr) (e : Event) (io' : IOManager) : Prop :=
  Rewritten io p ((io.contexts p).without e)
    (if (io.contexts p).m_events.erase e ≠ .NONE then
      some ⟨((io.contexts p).m_events.erase e).bits, p⟩ else none) io'

theorem RepInv.removes (hi : RepInv io) (hp : io.contextAt fd = .ok p)
    (hm : (io.contexts p).m_events.has e = true) (h : Removes io p e io') :
    RepInv io' ∧ io'.contextAt fd = .ok p ∧
      io'.abs.waiters = (io.abs.put fd e none).waiters := by
  have hlt := (hi.ok.table.of_contextAt hp).1
  have hevents : ((io.contexts p).without e).m_events = (io.contexts p).m_events.erase e := by
    simp [FdContext.without]
  have hok : EventsOk io' := by
    refine Rewritten.eventsOk h hi.ok hlt (fun ev hev => ?_) (fun hne => ?_) (fun hz => ?_)
    · rw [h.fd] at hev
      exact hi.ok.owner hlt (has_ne_NONE hm) hev
    · rw [hevents] at hne
      rw [h.fd]
      exact ⟨(hi.ok.listed p hlt (has_ne_NONE hm)).1, _, if_pos hne⟩
    · rw [hevents] at hz
      exact if_neg (not_not.mpr hz)
  obtain ⟨hi', hp', hw⟩ := hi.rewritten hp h hok ((hi.slots p hlt).without e) <| by
    intro ev hev
    split at hev
    · cases hev
      exact ⟨rfl, fun e' => by rw [hevents, EventMask.has_eq_getLsbD]⟩
    · cases hev
  refine ⟨hi', hp', ?_⟩
  funext fd' e'
  rw [hw fd' e', FdContext.registration_without]
  simp only [Registrations.put]
  by_cases hx : fd' = fd
  · subst fd'
    rw [abs_waiters_of_contextAt hp]
    by_cases he : e = e'
    · simp [he]
    · simp [he, Ne.symm he]
  · simp [hx]

theorem RepInv.entry_isSome (hi : RepInv io) (hp : io.contextAt fd = .ok p)
    (hm : (io.contexts p).m_events ≠ .NONE) : (io.epoll fd).isSome = true := by
  obtain ⟨hlt, hfd⟩ := hi.ok.table.of_contextAt hp
  obtain ⟨_, b, hb⟩ := hi.ok.listed p hlt hm
  rw [hfd] at hb
  rw [hb]
  rfl

theorem RepInv.entry_none (hi : RepInv io) (hp : io.contextAt fd = .ok p)
    (hm : (io.contexts p).m_events = .NONE) : io.epoll fd = none := by
  cases hev : io.epoll fd with
  | none => rfl
  | some ev =>
    obtain ⟨hlt, hfd, hne⟩ := hi.ok.back fd ev hev
    have hpl := hi.placed ev.ptr hlt
    rw [hfd, contextAt_ok_iff.mp hp] at hpl
    cases hpl
    exact absurd hm hne

theorem delEventLocked_removes (hi : RepInv io) (hp : io.contextAt fd = .ok p)
    (hm : (io.contexts p).m_events.has e = true) :
    ∃ io', io.delEventLocked p fd e = .ok (.bool true, io') ∧ Removes io p e io' ∧
      io'.tasks = io.tasks := by
  obtain ⟨_, hfd⟩ := hi.ok.table.of_contextAt hp
  have hsome := hi.entry_isSome hp (has_ne_NONE hm)
  refine ⟨_, delEventLocked_ok_iff.mpr (Or.inr ⟨hm, hsome, rfl, rfl⟩), ?_, rfl⟩
  refine ⟨rfl, rfl, ?_, ?_, by simp [FdContext.without]⟩
  · simp [resetContext, setContext, dropped, FdContext.without]
  · simp [resetContext, setContext, dropped, FdContext.without, hfd]

theorem cancelEventLocked_removes (hi : RepInv io) (hp : io.contextAt fd = .ok p)
    (hm : (io.contexts p).m_events.has e = true) :
    ∃ io', io.cancelEventLocked p fd e = .ok (.bool true, io') ∧ Removes io p e io' ∧
      io'.tasks = io.tasks ++ (io.abs.waiters fd e).toList := by
  obtain ⟨_, hfd⟩ := hi.ok.table.of_contextAt hp
  obtain ⟨w, hw, habs⟩ := hi.waiter_of_has hp hm
  have hsome := hi.entry_isSome hp (has_ne_NONE hm)
  have ht := triggerEvent_ok_iff.mpr ⟨hm, w, hw, rfl⟩
  refine ⟨_, cancelEventLocked_ok_iff.mpr (Or.inr ⟨_, ht, hsome, rfl, rfl⟩), ?_, ?_⟩
  · refine ⟨rfl, rfl, ?_, ?_, by simp [FdContext.without]⟩
    · simp only [resetContext, setContext, dropped, Function.update_idem, Function.update_self,
        FdContext.resetEventContext_events]
      congr 1
      cases e <;> rfl
    · simp [resetContext, setContext, dropped, FdContext.without, hfd]
  · rw [habs]
    rfl

theorem dispatchEvent_removes (hi : RepInv io) (hp : io.contextAt fd = .ok p)
    (hm : (io.contexts p).m_events.has e = true) :
    ∃ io', io.dispatchEvent p e = .ok io' ∧ Removes io p e io' ∧
      io'.tasks = io.tasks ++ (io.abs.waiters fd e).toList := by
  obtain ⟨hlt, hfd⟩ := hi.ok.table.of_contextAt hp
  obtain ⟨w, hw, habs⟩ := hi.waiter_of_has hp hm
  have ht := triggerEvent_ok_iff.mpr ⟨hm, w, hw, rfl⟩
  generalize hio₁ : { io.resetContext p e with tasks := io.tasks ++ [w] } = io₁ at ht
  have hs := triggerEvent_sameView ht
  have hsome := hi.entry_isSome hp (has_ne_NONE hm)
  have hfind : io₁.findContext fd = .ok (some p) := by
    apply findContext_of_contextAt
    · rw [hs.table]
      exact hi.small
    · rw [contextAt_ok_iff, hs.table]
      exact contextAt_ok_iff.mp hp
  have hdel : io₁.delEvent (io₁.contexts p).m_fd e =
      .ok (.bool true, (io₁.dropped p fd e).resetContext p e) := by
    rw [hs.fd, hfd]
    refine withContext_ok_iff.mpr (Or.inr ⟨p, hfind, ?_⟩)
    refine delEventLocked_ok_iff.mpr (Or.inr ⟨?_, ?_, rfl, rfl⟩)
    · rw [hs.events]
      exact hm
    · rw [hs.epoll]
      exact hsome
  refine ⟨_, dispatchEvent_ok_iff.mpr ⟨io₁, _, _, ht, hdel, rfl⟩, ?_, ?_⟩
  · subst io₁
    refine ⟨rfl, rfl, ?_, ?_, by simp [FdContext.without]⟩
    · simp only [resetContext, setContext, dropped, Function.update_idem, Function.update_self,
        FdContext.resetEventContext_events, FdContext.resetEventContext_withEvents]
      congr 1
      cases e <;> rfl
    · simp [resetContext, setContext, dropped, FdContext.without, hfd]
  · subst io₁
    rw [habs]
    rfl

theorem abs_eq {s : Registrations} (hw : io.abs.waiters = s.waiters)
    (ht : io.tasks = s.enqueued) : io.abs = s := Registrations.ext hw ht

theorem RepInv.removes_abs (hi : RepInv io) (hp : io.contextAt fd = .ok p)
    (hm : (io.contexts p).m_events.has e = true) (h : Removes io p e io')
    (ht : io'.tasks = io.tasks ++ (io.abs.waiters fd e).toList) :
    io'.abs = io.abs.release fd e :=
  abs_eq (hi.removes hp hm h).2.2 ht

end IOManager

end FiberAsync
